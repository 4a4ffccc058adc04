import Bittorrent.Download.Connections

/-!
# What the handlers leave

Each handler of the downloading side ends in one of a few states, given here once as equations: an
IHAVE and the end of a chunk in `assign`, a DENIED in `abort_download`, a timeout in a pick after
the crash. `streams` counts the slots of a peer, `progress` is the state of the entries: together
with the connections they are all that scheduling depends on.

An invariant that speaks of connections and streams at once is not kept move by move: between two moves of
one handler the two disagree. So the handlers are described whole. A pick ends in `assigned`, which depends
only on whether a free slot was there; a DATA packet closes no stream (`QuietData`) or completes the entry
of its sender's stream (`Completes`), which then goes to `assigned` as well; `Crash` has a constructor for
each return of `download_peer_crash`. The counts follow: `opened_streams` and `abortDownload_streams` say by
how much `streams` changes, for the peer itself and for the others.

`SlotRule.step` is the rule for properties of single slots. Such a property need not know what a step does,
only that the functions of `keep_track.c` keep it when they are called for admitted peers, and that the
streams started meet what the property asks of a start.
-/

namespace Bittorrent

variable {env : Env} {d d' d₁ : Downloads} {l : DownloadLog} {p q : Int} {index entry : Nat}
  {slot slot' : DownloadSlot} {hash : Hash} {request : Request} {chunk chunk' : Chunk}
  {packet : Incoming} {clk : Clock} {state : ConnectionState}

/-! ## Streams of a peer -/

/-- The number of slots of a peer; for `ID_NULL`, of free slots. -/
def Downloads.streams (d : Downloads) (q : Int) : Nat :=
  d.slots.countP fun slot => slot.downloadId = q

theorem streams_pos : 0 < d.streams q ↔ ∃ slot ∈ d.slots, slot.downloadId = q := by
  simp only [Downloads.streams, List.countP_pos_iff, decide_eq_true_eq]

theorem streams_zero : d.streams q = 0 ↔ getDownloadIndexById q d = none := by
  rw [Downloads.streams, List.countP_eq_zero, getDownloadIndexById, Table.lookup_eq_none]
  simp only [decide_eq_true_eq]
  constructor
  · exact fun h i slot hi => h slot (List.mem_of_getElem? hi)
  · intro h slot hmem
    obtain ⟨i, hi⟩ := List.mem_iff_getElem?.mp hmem
    exact h i slot hi

theorem streams_found (h : getDownloadIndexById q d = some (index, slot)) : 0 < d.streams q := by
  rw [Nat.pos_iff_ne_zero, ne_eq, streams_zero, h]
  exact Option.some_ne_none _

theorem streams_write (hi : d.slots[index]? = some slot) (slot' : DownloadSlot) :
    (d.write index slot').streams q + (if slot.downloadId = q then 1 else 0) =
      d.streams q + (if slot'.downloadId = q then 1 else 0) := by
  have h := Table.countP_set (b := slot') (p := fun s => decide (s.downloadId = q)) hi
  simp only [decide_eq_true_eq] at h
  exact h

theorem streams_congr (h : d'.slots = d.slots) : d'.streams q = d.streams q := by
  rw [Downloads.streams, h]
  rfl

/-! ## The tracker -/

theorem trackDataPacket_frame (p : Int) (seq length : Nat) (now : Time) (d : Downloads) :
    (trackDataPacket p seq length now d).2.connections = d.connections ∧
      (trackDataPacket p seq length now d).2.currentRequest = d.currentRequest ∧
      ∀ q, (trackDataPacket p seq length now d).2.streams q = d.streams q := by
  cases h : getDownloadIndexById p d with
  | none =>
    rw [trackDataPacket_none h]
    exact ⟨rfl, rfl, fun _ => rfl⟩
  | some r =>
    obtain ⟨index, slot⟩ := r
    rw [trackDataPacket_eq h]
    refine ⟨rfl, rfl, fun q => ?_⟩
    have hcount := streams_write (q := q) (getDownloadIndexById_get h) { slot with
      lastAckedRecord := advanceRecords seq length slot.lastAckedRecord, downloadLastTime := now }
    simpa using hcount

/-! ## Starting and closing a stream -/

/-- The state after `start_download`, whether or not a slot was free. -/
def Downloads.opened (p : Int) (hash : Hash) (clk : Clock) (d : Downloads) : Downloads :=
  match startDownload p hash clk d with
  | none => d
  | some (_, d') => d'

theorem openStream_fst {dst : Option Addr} :
    (openStream dst p entry chunk clk d).1 = d.opened p chunk.hash clk := by
  cases h : startDownload p chunk.hash clk d with
  | none => simp only [openStream, Downloads.opened, h]
  | some r => simp only [openStream, Downloads.opened, h]

theorem opened_none (h : d.streams idNull = 0) : d.opened p hash clk = d := by
  rw [Downloads.opened, startDownload, streams_zero.mp h]

/-- The slot that `start_download` fills. -/
def DownloadSlot.opened (p : Int) (hash : Hash) (now : Time) (slot : DownloadSlot) : DownloadSlot :=
  { slot with downloadId := p, downloadChunk := some hash, downloadLastTime := now }

theorem opened_some (h : getDownloadIndexById idNull d = some (index, slot)) :
    d.opened p hash clk =
      (trackDataPacket p 0 1 (clk 2) (d.write index (slot.opened p hash (clk 1)))).2 := by
  rw [Downloads.opened, startDownload, h]
  rfl

theorem opened_frame (p : Int) (hash : Hash) (clk : Clock) (d : Downloads) :
    (d.opened p hash clk).connections = d.connections ∧
      (d.opened p hash clk).currentRequest = d.currentRequest := by
  cases h : getDownloadIndexById idNull d with
  | none =>
    rw [opened_none (streams_zero.mpr h)]
    exact ⟨rfl, rfl⟩
  | some r =>
    rw [opened_some h]
    exact ⟨(trackDataPacket_frame _ _ _ _ _).1, (trackDataPacket_frame _ _ _ _ _).2.1⟩

theorem opened_streams (hfree : 0 < d.streams idNull) :
    (d.opened p hash clk).streams q + (if idNull = q then 1 else 0) =
      d.streams q + (if p = q then 1 else 0) := by
  cases h : getDownloadIndexById idNull d with
  | none =>
    rw [streams_zero.mpr h] at hfree
    exact absurd hfree (Nat.lt_irrefl 0)
  | some r =>
    obtain ⟨index, slot⟩ := r
    rw [opened_some h, (trackDataPacket_frame _ _ _ _ _).2.2]
    have hcount := streams_write (q := q) (getDownloadIndexById_get h)
      (slot.opened p hash (clk 1))
    rwa [getDownloadIndexById_id h] at hcount

theorem abortDownload_frame (p : Int) (d : Downloads) :
    (abortDownload p d).connections = d.connections ∧
      (abortDownload p d).currentRequest = d.currentRequest := by
  unfold abortDownload
  split <;> exact ⟨rfl, rfl⟩

theorem abortDownload_streams (hactive : 0 < d.streams p) :
    (abortDownload p d).streams q + (if p = q then 1 else 0) =
      d.streams q + (if idNull = q then 1 else 0) := by
  cases h : getDownloadIndexById p d with
  | none =>
    rw [streams_zero.mpr h] at hactive
    exact absurd hactive (Nat.lt_irrefl 0)
  | some r =>
    obtain ⟨index, slot⟩ := r
    rw [abortDownload_eq h]
    have hcount := streams_write (q := q) (getDownloadIndexById_get h) slot.abort
    rw [getDownloadIndexById_id h] at hcount
    exact hcount

/-! ## Progress of the request -/

/-- The state and the hash of every entry of the current request. -/
def Downloads.progress (d : Downloads) : Option (List (ChunkState × Hash)) :=
  d.currentRequest.map fun request => request.chunks.map fun chunk => (chunk.state, chunk.hash)

/-- An entry with the hash is NOT_STARTED. -/
def Downloads.Unstarted (d : Downloads) (hash : Hash) : Prop :=
  ∃ entries, d.progress = some entries ∧ (.notStarted, hash) ∈ entries

theorem unstarted_iff : d.Unstarted hash ↔ ∃ request, d.currentRequest = some request ∧
    ∃ chunk ∈ request.chunks, chunk.state = .notStarted ∧ chunk.hash = hash := by
  unfold Downloads.Unstarted Downloads.progress
  constructor
  · rintro ⟨entries, h, hmem⟩
    obtain ⟨request, hrequest, rfl⟩ := Option.map_eq_some_iff.mp h
    obtain ⟨chunk, hchunk, he⟩ := List.mem_map.mp hmem
    obtain ⟨hstate, hhash⟩ := Prod.mk.inj he
    exact ⟨request, hrequest, chunk, hchunk, hstate, hhash⟩
  · rintro ⟨request, hrequest, chunk, hchunk, hstate, rfl⟩
    exact ⟨_, by rw [hrequest]; rfl, List.mem_map.mpr ⟨chunk, hchunk, by rw [hstate]⟩⟩

theorem unstarted_congr (h : d'.progress = d.progress) : d'.Unstarted hash ↔ d.Unstarted hash := by
  rw [Downloads.Unstarted, h, Downloads.Unstarted]

theorem progress_congr (h : d'.currentRequest = d.currentRequest) : d'.progress = d.progress := by
  rw [Downloads.progress, h, Downloads.progress]

theorem progress_writeChunk (hrequest : d.currentRequest = some request)
    (hget : request.chunks[entry]? = some chunk) (hstate : chunk'.state = chunk.state)
    (hhash : chunk'.hash = chunk.hash) : (d.writeChunk entry chunk').progress = d.progress := by
  rw [Downloads.progress, Downloads.progress, writeChunk_currentRequest hrequest, hrequest]
  simp only [Option.map_some, Option.some.injEq]
  exact Table.map_set_key hget (by rw [hstate, hhash])

theorem unstarted_set (hrequest : d.currentRequest = some request) (hget : request.chunks[entry]? = some chunk)
    (hset : d'.currentRequest = some { request with chunks := request.chunks.set entry chunk' })
    (hhash : chunk'.hash = chunk.hash) (hkeep : chunk.state = .notStarted → chunk'.state = .notStarted) :
    d'.Unstarted hash ↔ d.Unstarted hash ∨ (hash = chunk.hash ∧ chunk'.state = .notStarted) := by
  have hlt := (List.getElem?_eq_some_iff.mp hget).1
  rw [unstarted_iff, unstarted_iff]
  constructor
  · rintro ⟨r, hr, c, hmem, hstate, rfl⟩
    cases hset.symm.trans hr
    rcases List.mem_or_eq_of_mem_set hmem with hmem | rfl
    · exact Or.inl ⟨request, hrequest, c, hmem, hstate, rfl⟩
    · exact Or.inr ⟨hhash, hstate⟩
  · rintro (⟨r, hr, c, hmem, hstate, rfl⟩ | ⟨rfl, hstate⟩)
    · cases hrequest.symm.trans hr
      obtain ⟨i, hi⟩ := List.mem_iff_getElem?.mp hmem
      by_cases hne : entry = i
      · subst hne
        cases hget.symm.trans hi
        exact ⟨_, hset, chunk', List.mem_of_getElem? (Table.get_set_self hlt), hkeep hstate, hhash⟩
      · exact ⟨_, hset, c, List.mem_of_getElem? ((Table.get_set_ne hne).trans hi), hstate, rfl⟩
    · exact ⟨_, hset, chunk', List.mem_of_getElem? (Table.get_set_self hlt), hstate, hhash⟩

theorem unstarted_resetChunk (hrequest : d.currentRequest = some request)
    (hget : request.chunks[entry]? = some chunk) (hchunk : chunk.hash = hash) {k : Hash} :
    (resetChunk hash d).Unstarted k ↔ d.Unstarted k ∨ k = hash := by
  obtain ⟨i, c, hfound, -⟩ : ∃ i c, Table.lookup Chunk.hash hash request.chunks = some (i, c) ∧ _ :=
    Table.lookup_exists hget hchunk
  have hreset : resetChunk hash d = d.writeChunk i (c.reset .notStarted) := by
    unfold resetChunk
    simp only [hrequest, hfound]
    rfl
  have hset : (d.writeChunk i (c.reset .notStarted)).Unstarted k ↔
      d.Unstarted k ∨ (k = c.hash ∧ (c.reset .notStarted).state = .notStarted) :=
    unstarted_set hrequest (Table.lookup_get hfound) (writeChunk_currentRequest hrequest i _) rfl fun _ => rfl
  rw [hreset, hset, Table.lookup_key hfound]
  exact or_congr_right (and_iff_left rfl)

/-! ## Picking and assigning -/

theorem pickEntry_none_iff {offered : Hash → Bool} :
    pickEntry offered d = none ↔ ∀ hash, offered hash = true → ¬ d.Unstarted hash := by
  unfold pickEntry
  constructor
  · intro h hash hoffered hun
    obtain ⟨request, hrequest, chunk, hmem, hstate, rfl⟩ := unstarted_iff.mp hun
    simp only [hrequest] at h
    obtain ⟨i, hi⟩ := List.mem_iff_getElem?.mp hmem
    exact Table.lookup_eq_none.mp h i chunk hi (by simp [hstate, hoffered])
  · intro h
    split
    · rfl
    · rename_i request hrequest
      refine Table.lookup_eq_none.mpr fun i chunk hi hkey => ?_
      rw [Bool.and_eq_true, decide_eq_true_eq] at hkey
      exact h chunk.hash hkey.2
        (unstarted_iff.mpr ⟨request, hrequest, chunk, List.mem_of_getElem? hi, hkey.1, rfl⟩)

/-- The picked entry is RECEIVING, its peer WORKING, and a free slot, if there is one, the peer's. -/
def Downloads.started (p : Int) (entry : Nat) (chunk : Chunk) (clk : Clock) (d : Downloads) :
    Downloads :=
  (markPeerState p .working (d.writeChunk entry { chunk with state := .receiving })).opened p
    chunk.hash clk

theorem started_connections : (d.started p entry chunk clk).connections =
    (markPeerState p .working d).connections := by
  rw [Downloads.started, (opened_frame _ _ _ _).1, markPeerState_writeChunk]
  rfl

theorem markPeerState_streams : (markPeerState p state d).streams q = d.streams q :=
  streams_congr markPeerState_slots

theorem started_stuck (h : d.streams idNull = 0) :
    (d.started p entry chunk clk).streams q = d.streams q := by
  have hfree : (markPeerState p .working
      (d.writeChunk entry { chunk with state := .receiving })).streams idNull = 0 :=
    markPeerState_streams.trans h
  rw [Downloads.started, opened_none hfree, markPeerState_streams]
  rfl

theorem started_streams (h : 0 < d.streams idNull) :
    (d.started p entry chunk clk).streams q + (if idNull = q then 1 else 0) =
      d.streams q + (if p = q then 1 else 0) := by
  have hfree : 0 < (markPeerState p .working
      (d.writeChunk entry { chunk with state := .receiving })).streams idNull := by
    rw [markPeerState_streams]
    exact h
  rw [Downloads.started, opened_streams hfree, markPeerState_streams]
  rfl

/-- The state `assign` leaves. -/
def Downloads.assigned (p : Int) (picked : Option (Nat × Chunk)) (clk : Clock) (d : Downloads) :
    Downloads :=
  match picked with
  | none => markPeerState p .notWorking d
  | some (entry, chunk) => d.started p entry chunk clk

theorem assign_fst (src : Addr) {picked : Option (Nat × Chunk)} :
    (assign src p picked clk d).1 = d.assigned p picked clk := by
  unfold assign Downloads.assigned
  cases picked with
  | none => rfl
  | some r => exact openStream_fst

/-! ## IHAVE and DATA -/

theorem inboundIhave_outcome {src : Addr} (h : inboundIhave src p packet clk d = .ok (d', l)) :
    d' = if d.currentRequest.isSome then
      (updateConnections p packet d).assigned p (pickAChunk packet d) clk
    else updateConnections p packet d := by
  obtain ⟨hcurrent, -⟩ := updateConnections_currentRequest (p := p) (d := d) packet
  have hpick : pickAChunk packet (updateConnections p packet d) = pickAChunk packet d := by
    rw [pickAChunk, pickAChunk, pickEntry, pickEntry, hcurrent]
  unfold inboundIhave at h
  split at h
  · cases h
  · simp only [hcurrent, hpick] at h
    by_cases hsome : d.currentRequest.isSome = true
    · rw [if_pos hsome] at h ⊢
      rw [← assign_fst src]
      exact (congrArg Prod.fst (Except.ok.inj h)).symm
    · rw [if_neg hsome] at h ⊢
      exact (congrArg Prod.fst (Except.ok.inj h)).symm

/-- The packet completes the entry of its sender's stream: the state once that stream is closed. -/
def Completes (env : Env) (p : Int) (packet : Incoming) (now : Time) (d d₁ : Downloads) : Prop :=
  ∃ index slot hash request entry chunk chunk' d₂ saved,
    Target d p index slot hash request entry chunk ∧
    packet.seqNumber = (trackDataPacket p packet.seqNumber packet.dataLength now d).1 ∧
    saveDataPacket packet chunk = .ok chunk' ∧
    saveChunk env entry
      ((trackDataPacket p packet.seqNumber packet.dataLength now d).2.writeChunk entry chunk') =
        .ok (some (d₂, saved)) ∧
    d₁ = abortDownload p d₂

/-- `save_chunk` gives up the entry that is full: verified, it is OWNED, else NOT_STARTED again. -/
theorem saveChunk_given {r : Downloads × DownloadLog} (hrequest : d.currentRequest = some request)
    (hget : request.chunks[entry]? = some chunk) (h : saveChunk env entry d = .ok (some r)) :
    ∃ data state, chunk.receivedByteNumber = btChunkSize ∧ chunk.state ≠ .owned ∧ chunk.data = some data ∧
      (state = .notStarted ↔ env.shahash (readBytes data 0 btChunkSize) ≠ chunk.hash) ∧
      r.1.currentRequest = some { request with chunks := request.chunks.set entry (chunk.reset state) } := by
  obtain ⟨hfull, hstate, data, hdata, ⟨hbad, rfl⟩ | ⟨hgood, rfl⟩⟩ := saveChunk_some hrequest hget h
  · exact ⟨data, .notStarted, hfull, hstate, hdata, iff_of_true rfl hbad, writeChunk_currentRequest hrequest _ _⟩
  · exact ⟨data, .owned, hfull, hstate, hdata, iff_of_false (by decide) (not_not_intro hgood),
      writeChunk_currentRequest (d := d.store env request.filename chunk data) hrequest _ _⟩

theorem Completes.filled {now : Time} (h : Completes env p packet now d d₁) :
    ∃ index slot hash request entry chunk chunk' data,
      Target d p index slot hash request entry chunk ∧ Filled packet chunk chunk' data ∧
      packet.seqNumber = (trackDataPacket p packet.seqNumber packet.dataLength now d).1 ∧
      (chunk.state ≠ .notStarted → ∀ k, d₁.Unstarted k ↔ d.Unstarted k ∨
        (k = chunk.hash ∧ env.shahash (readBytes data 0 btChunkSize) ≠ chunk.hash)) := by
  obtain ⟨index, slot, hash, request, entry, chunk, chunk', d₂, saved, htarget, hexpected, hsave, hsaved, rfl⟩ := h
  obtain ⟨-, hhash, -, -⟩ := saveDataPacket_ok hsave
  have hcurrent := (trackDataPacket_frame p packet.seqNumber packet.dataLength now d).2.1.trans htarget.current
  obtain ⟨data, state, hfull, hstate, hdata, hverified, hgiven⟩ := saveChunk_given
    (writeChunk_currentRequest hcurrent entry chunk')
    (Table.get_set_self (List.getElem?_eq_some_iff.mp htarget.get).1) hsaved
  rw [hhash] at hverified
  simp only [List.set_set] at hgiven
  refine ⟨index, slot, hash, request, entry, chunk, chunk', data, htarget, ⟨hsave, hfull, hstate, hdata⟩,
    hexpected, fun hstarted k => ?_⟩
  rw [unstarted_set htarget.current htarget.get ((abortDownload_frame p d₂).2.trans hgiven) hhash
    fun hs => absurd hs hstarted]
  exact or_congr_right (and_congr_right fun _ => hverified)

/-- A DATA packet that closes no stream: at most the records and the buffer of one change. -/
structure QuietData (p : Int) (packet : Incoming) (d d' : Downloads) : Prop where
  connections : d'.connections = d.connections
  progress : d'.progress = d.progress
  slots : d'.slots = d.slots ∨ ∃ now,
    d'.slots = (trackDataPacket p packet.seqNumber packet.dataLength now d).2.slots

theorem QuietData.streams (h : QuietData p packet d d') : d'.streams q = d.streams q := by
  rcases h.slots with hslots | ⟨now, hslots⟩
  · exact streams_congr hslots
  · rw [streams_congr hslots, (trackDataPacket_frame _ _ _ _ _).2.2]

theorem inboundData_outcome {src : Addr} (h : inboundData env src p packet clk d = .ok (d', l)) :
    QuietData p packet d d' ∨ ∃ d₁, Completes env p packet (clk 0) d d₁ ∧
      d' = d₁.assigned p (pickANewChunk p d₁) clk := by
  rcases inboundData_target h with ⟨rfl, -⟩ | ⟨index, slot, hash, request, entry, chunk, htarget⟩
  · exact Or.inl ⟨rfl, rfl, Or.inl rfl⟩
  · have htracked := htarget.track packet.seqNumber packet.dataLength (clk 0)
    obtain ⟨hconnections, hcurrent, -⟩ :=
      trackDataPacket_frame p packet.seqNumber packet.dataLength (clk 0) d
    rw [inboundData_eq htarget] at h
    simp only at h
    split_ifs at h with hexpected
    · split at h
      · cases h
      · rename_i d₂ saved haccept
        cases h
        unfold acceptData at haccept
        split at haccept
        · cases haccept
        · rename_i chunk' hsave
          obtain ⟨-, hhash, hstate, -⟩ := saveDataPacket_ok hsave
          simp only at haccept
          split at haccept
          · cases haccept
          · cases haccept
            refine Or.inl ⟨hconnections, ?_, Or.inr ⟨clk 0, rfl⟩⟩
            rw [progress_writeChunk (hcurrent.trans htarget.current) htarget.get hstate hhash,
              progress_congr hcurrent]
          · rename_i d₃ saved' hsaved
            cases haccept
            refine Or.inr ⟨_, ⟨index, slot, hash, request, entry, chunk, chunk', d₃, saved', htarget,
              hexpected, hsave, hsaved, rfl⟩, ?_⟩
            exact assign_fst src
    · cases h
      exact Or.inl ⟨hconnections, progress_congr hcurrent, Or.inr ⟨clk 0, rfl⟩⟩

theorem saveChunk_frame {r : Downloads × DownloadLog} (h : saveChunk env entry d = .ok (some r)) :
    r.1.slots = d.slots ∧ r.1.connections = d.connections := by
  unfold saveChunk at h
  split at h
  · cases h
  · split at h
    · cases h
    · split_ifs at h
      · split at h
        · cases h
        · dsimp only at h
          split_ifs at h
          · cases h
            exact ⟨rfl, rfl⟩
          · cases h
            exact ⟨rfl, rfl⟩
      · cases h

theorem Completes.streams {now : Time} (h : Completes env p packet now d d₁) :
    d₁.connections = d.connections ∧ 0 < d.streams p ∧
      ∀ q, d₁.streams q + (if p = q then 1 else 0) = d.streams q + (if idNull = q then 1 else 0) := by
  obtain ⟨index, slot, hash, request, entry, chunk, chunk', d₂, saved, htarget, -, -, hsaved, rfl⟩ := h
  obtain ⟨hslots, hconnections⟩ := saveChunk_frame hsaved
  obtain ⟨hconn, -, hstreams⟩ :=
    trackDataPacket_frame p packet.seqNumber packet.dataLength now d
  have hsame : ∀ q, d₂.streams q = d.streams q := fun q => (streams_congr hslots).trans (hstreams q)
  have hpos := streams_found htarget.found
  refine ⟨(abortDownload_frame p d₂).1.trans (hconnections.trans hconn), hpos, fun q => ?_⟩
  rw [abortDownload_streams (by rw [hsame]; exact hpos), hsame]

/-! ## Timeouts -/

/-- What `download_peer_crash` leaves: nothing timed out; or the stream of peer `q` is closed and the
function returns early; or its entry is reset and its connection removed as well. -/
inductive Crash (now : Time) (rto : Int) (d : Downloads) : Bool → Downloads → Prop
  | calm (h : cleanDownloadTimeout now rto d = .ok none) : Crash now rto d false d
  | early {q : Int} {hash : Hash} {d₁ : Downloads}
      (h : cleanDownloadTimeout now rto d = .ok (some (q, hash, d₁)))
      (hreturn : q ≤ 0 ∨ d.connections = [] ∨ d.currentRequest = none) : Crash now rto d false d₁
  | removed {q : Int} {hash : Hash} {d₁ : Downloads}
      (h : cleanDownloadTimeout now rto d = .ok (some (q, hash, d₁))) (hpos : 0 < q) :
      Crash now rto d (d.connections.any fun c => c.peerId = q) { resetChunk hash d₁ with
        connections := d.connections.eraseP fun c => c.peerId = q }

theorem cleanDownloadTimeout_eq {now : Time} {rto : Int}
    (h : cleanDownloadTimeout now rto d = .ok (some (q, hash, d₁))) :
    q ≠ idNull ∧ 0 < d.streams q ∧ d₁ = abortDownload q d := by
  obtain ⟨i, idle, hash', hget, -, -, hactive, -, hr⟩ := cleanDownloadTimeout_some h
  cases hr
  exact ⟨hactive, streams_pos.mpr ⟨idle, List.mem_of_getElem? hget, rfl⟩, rfl⟩

theorem cleanDownloadTimeout_find {now : Time} {rto : Int}
    (h : cleanDownloadTimeout now rto d = .ok (some (q, hash, d₁))) :
    ∃ idle, d.slots.find? (DownloadSlot.timedOut now rto) = some idle ∧ idle.downloadId = q ∧
      idle.downloadChunk = some hash := by
  obtain ⟨i, idle, hash', -, hfind, -, -, hhash, hr⟩ := cleanDownloadTimeout_some h
  cases hr
  exact ⟨idle, hfind, rfl, hhash⟩

theorem Crash.connections_subset {now : Time} {rto : Int} {crashed : Bool}
    (h : Crash now rto d crashed d₁) : ∀ c ∈ d₁.connections, c ∈ d.connections := by
  intro c hc
  cases h with
  | calm _ => exact hc
  | early h _ =>
    obtain ⟨-, -, rfl⟩ := cleanDownloadTimeout_eq h
    rwa [(abortDownload_frame _ d).1] at hc
  | removed h _ => exact List.mem_of_mem_eraseP hc

theorem streams_removed (connections : List Connection) :
    ({ resetChunk hash d with connections } : Downloads).streams q = d.streams q :=
  streams_congr resetChunk_slots

theorem Crash.free {now : Time} {rto : Int} {crashed : Bool} (h : Crash now rto d crashed d₁)
    (hcrashed : crashed = true) : 0 < d₁.streams idNull := by
  cases h with
  | calm _ => cases hcrashed
  | early _ _ => cases hcrashed
  | @removed q _ _ hclean _ =>
    obtain ⟨hq, hpos, rfl⟩ := cleanDownloadTimeout_eq hclean
    have hcount := abortDownload_streams (q := idNull) hpos
    rw [if_neg hq, if_pos rfl] at hcount
    rw [streams_removed]
    omega

theorem downloadPeerCrash_outcome {now : Time} {rto : Int} {crashed : Bool}
    (h : downloadPeerCrash now rto d = .ok (crashed, d')) : Crash now rto d crashed d' := by
  unfold downloadPeerCrash at h
  split at h
  · cases h
  · rename_i hcalm
    cases h
    exact .calm hcalm
  · rename_i q hash d₁ hclean
    obtain ⟨-, -, hd₁⟩ := cleanDownloadTimeout_eq hclean
    obtain ⟨hconnections, hcurrent⟩ := abortDownload_frame q d
    rw [← hd₁] at hconnections hcurrent
    split_ifs at h with hreturn
    · cases h
      rw [hconnections, hcurrent, List.isEmpty_iff, Option.isNone_iff_eq_none] at hreturn
      exact .early hclean hreturn
    · simp only [Except.ok.injEq, Prod.mk.injEq, resetChunk_connections, hconnections] at h
      obtain ⟨rfl, rfl⟩ := h
      exact .removed hclean (by omega)

theorem downloadPeerCrashWrapper_outcome {rto : Int}
    (h : downloadPeerCrashWrapper env clk rto d = .ok (d', l)) :
    ∃ crashed d₂, downloadPeerCrash (clk 0) rto d = .ok (crashed, d₂) ∧
      d' = match crashed, pickAChunkAfterCrash d₂ with
        | true, some (q, entry, chunk) => d₂.started q entry chunk clk
        | _, _ => d₂ := by
  unfold downloadPeerCrashWrapper at h
  split at h
  · cases h
  · rename_i d₂ hcrash
    cases h
    exact ⟨false, d', hcrash, rfl⟩
  · rename_i d₂ hcrash
    refine ⟨true, d₂, hcrash, ?_⟩
    split at h
    · rename_i hnone
      cases h
      simp only [hnone]
    · rename_i q entry chunk hpick
      simp only [hpick]
      have hd := (congrArg Prod.fst (Except.ok.inj h)).symm
      rw [openStream_fst] at hd
      exact hd

/-! ## The other steps -/

theorem inboundWhohas_fst {src : Addr} (h : inboundWhohas src packet d = .ok (d', l)) : d' = d := by
  unfold inboundWhohas at h
  dsimp only at h
  split_ifs at h
  · cases h
    rfl
  · cases h
    rfl

theorem finishRequest_frame (d : Downloads) : (finishRequest d).slots = d.slots ∧
    (finishRequest d).connections = d.connections ∧
    ((finishRequest d).currentRequest = d.currentRequest ∨
      (finishRequest d).currentRequest = none) := by
  unfold finishRequest
  split_ifs
  · exact ⟨rfl, rfl, Or.inr rfl⟩
  · exact ⟨rfl, rfl, Or.inl rfl⟩

theorem userGet_frame {outf : String} {parsed : Option (List (Int × Hash))}
    (h : userGet env outf parsed d = .ok (d', l)) :
    d'.slots = d.slots ∧ d'.connections = d.connections := by
  rcases userGet_cases h with ⟨rfl, -⟩ | ⟨lines, sent, -, -, -, rfl, -⟩
  · exact ⟨rfl, rfl⟩
  · exact ⟨rfl, rfl⟩

/-! ## No two connections to one peer -/

theorem peers_assigned (picked : Option (Nat × Chunk)) :
    (d.assigned p picked clk).peers = d.peers := by
  unfold Downloads.assigned
  split
  · exact peers_markPeerState
  · rw [Downloads.peers, started_connections]
    exact peers_markPeerState

theorem Crash.peers_nodup {now : Time} {rto : Int} {crashed : Bool}
    (h : Crash now rto d crashed d₁) (hd : d.peers.Nodup) : d₁.peers.Nodup := by
  cases h with
  | calm _ => exact hd
  | early h _ =>
    obtain ⟨-, -, rfl⟩ := cleanDownloadTimeout_eq h
    rw [Downloads.peers, (abortDownload_frame _ d).1]
    exact hd
  | removed h _ => exact (List.eraseP_sublist.map _).nodup hd

theorem peers_nodup_step {ev : DownloadEvent} (hd : d.peers.Nodup)
    (h : (downloadMachine env).step ev d = .ok (d', l)) : d'.peers.Nodup := by
  cases ev with
  | whohas src packet => exact inboundWhohas_fst h ▸ hd
  | ihave src p packet clk =>
    rw [inboundIhave_outcome h]
    split_ifs
    · rw [peers_assigned]
      exact nodup_updateConnections hd
    · exact nodup_updateConnections hd
  | data src p packet clk =>
    rcases inboundData_outcome h with hquiet | ⟨d₁, hcompletes, rfl⟩
    · rw [Downloads.peers, hquiet.connections]
      exact hd
    · rw [peers_assigned, Downloads.peers, hcompletes.streams.1]
      exact hd
  | denied p =>
    obtain ⟨rfl, -⟩ := Prod.mk.inj (Except.ok.inj h)
    rw [inboundDenied, Downloads.peers, (abortDownload_frame p d).1]
    exact hd
  | crash clk rto =>
    obtain ⟨crashed, d₁, hcrash, rfl⟩ := downloadPeerCrashWrapper_outcome h
    have hd₁ := (downloadPeerCrash_outcome hcrash).peers_nodup hd
    split
    · rw [Downloads.peers, started_connections]
      exact (congrArg List.Nodup peers_markPeerState).mpr hd₁
    · exact hd₁
  | finish =>
    obtain ⟨rfl, -⟩ := Prod.mk.inj (Except.ok.inj h)
    rw [Downloads.peers, (finishRequest_frame d).2.1]
    exact hd
  | userGet outf parsed =>
    rw [Downloads.peers, (userGet_frame h).2]
    exact hd

theorem peers_nodup_reach {max : Nat} {has : List Chunk} {files : String → Memory}
    {Ok : Downloads → DownloadLog → DownloadEvent → Prop} {log : DownloadLog}
    (h : (downloadMachine env).Reach (· = initDownloads max has files) Ok d log) : d.peers.Nodup := by
  refine h.invariant (I := fun d _ => d.peers.Nodup) (fun d hd => ?_)
    fun d log ev d' l _ hI _ hs => peers_nodup_step hI hs
  subst hd
  exact List.nodup_nil

/-! ## Properties of the slots -/

variable {P : DownloadSlot → Prop}

theorem seqNumber_lt (packet : Incoming) : packet.seqNumber < 2 ^ 32 := by
  have hlt := fun k => (packet.buf k).toNat_lt
  simp only [Incoming.seqNumber, ntohl, ntohs, Nat.reduceAdd]
  have h8 := hlt 8
  have h9 := hlt 9
  have h10 := hlt 10
  have h11 := hlt 11
  omega

/-- A property of the slots that the functions of `keep_track.c` keep, called for peers in `Peer`, when
`start_download` finds what `Start` asks for; a peer whose stream has ended has it. -/
structure SlotRule (I : Downloads → Prop) (Peer : Int → Prop) (Start : Downloads → Int → Prop) :
    Prop where
  outside : ∀ {d d' : Downloads}, I d → d'.slots = d.slots → I d'
  track : ∀ {d : Downloads} {p : Int} {seq : Nat}, I d → Peer p → seq < 2 ^ 32 →
    ∀ length now, I (trackDataPacket p seq length now d).2
  abort : ∀ {d : Downloads}, I d → ∀ p, I (abortDownload p d)
  opened : ∀ {d : Downloads} {p : Int}, I d → Peer p → Start d p → ∀ hash clk, I (d.opened p hash clk)
  start_congr : ∀ {d d' : Downloads} {p : Int}, d'.slots = d.slots → Start d p → Start d' p
  reopened : ∀ {d : Downloads} {p : Int}, I d → Peer p → Start (abortDownload p d) p

/-- The event is from a peer in `Peer`, and the stream it starts is one that `Start` admits. -/
def Admitted (Peer : Int → Prop) (Start : Downloads → Int → Prop) (d : Downloads) :
    DownloadEvent → Prop
  | .ihave _ p packet _ => Peer p ∧ (pickAChunk packet d ≠ none → Start d p)
  | .data _ p _ _ => Peer p
  | .crash clk rto => ∀ d₁ q entry chunk, downloadPeerCrash (clk 0) rto d = .ok (true, d₁) →
      pickAChunkAfterCrash d₁ = some (q, entry, chunk) → Peer q ∧ Start d₁ q
  | _ => True

theorem picked_valid {now : Time} {rto : Int} {crashed : Bool} (hpeers : PeersValid d.connections)
    (hcrash : downloadPeerCrash now rto d = .ok (crashed, d₁))
    (hpick : pickAChunkAfterCrash d₁ = some (q, entry, chunk)) : q ≠ idNull := by
  obtain ⟨⟨c, hc, rfl⟩, -⟩ := pickAChunkAfterCrash_some hpick
  exact hpeers c ((downloadPeerCrash_outcome hcrash).connections_subset c hc)

namespace SlotRule

variable {I : Downloads → Prop} {Peer : Int → Prop} {Start : Downloads → Int → Prop}
  (hr : SlotRule I Peer Start) (h : I d)

include hr h

theorem started (hp : Peer p) (hstart : Start d p) : I (d.started p entry chunk clk) := by
  have hslots : (markPeerState p .working
    (d.writeChunk entry { chunk with state := .receiving })).slots = d.slots := markPeerState_slots
  exact hr.opened (hr.outside h hslots) hp (hr.start_congr hslots hstart) chunk.hash clk

theorem assigned {picked : Option (Nat × Chunk)} (hp : Peer p) (hstart : picked ≠ none → Start d p) :
    I (d.assigned p picked clk) := by
  cases picked with
  | none => exact hr.outside h markPeerState_slots
  | some r => exact hr.started h hp (hstart (Option.some_ne_none r))

theorem crash {now : Time} {rto : Int} {crashed : Bool} (hc : Crash now rto d crashed d₁) : I d₁ := by
  cases hc with
  | calm _ => exact h
  | early hclean _ =>
    obtain ⟨-, -, rfl⟩ := cleanDownloadTimeout_eq hclean
    exact hr.abort h _
  | removed hclean _ =>
    obtain ⟨-, -, rfl⟩ := cleanDownloadTimeout_eq hclean
    exact hr.outside (hr.abort h _) resetChunk_slots

theorem step {ev : DownloadEvent} (hok : Admitted Peer Start d ev)
    (hs : (downloadMachine env).step ev d = .ok (d', l)) : I d' := by
  cases ev with
  | whohas src packet => exact inboundWhohas_fst hs ▸ h
  | ihave src p packet clk =>
    obtain ⟨hp, hstart⟩ := hok
    have hslots := (updateConnections_currentRequest (p := p) (d := d) packet).2
    have hupdated := hr.outside h hslots
    rw [inboundIhave_outcome hs]
    split_ifs
    · exact hr.assigned hupdated hp fun hpick => hr.start_congr hslots (hstart hpick)
    · exact hupdated
  | data src p packet clk =>
    have htrack := hr.track (p := p) h hok (seqNumber_lt packet) packet.dataLength
    rcases inboundData_outcome hs with hquiet | ⟨d₁, hcompletes, rfl⟩
    · rcases hquiet.slots with hslots | ⟨now, hslots⟩
      · exact hr.outside h hslots
      · exact hr.outside (htrack now) hslots
    · obtain ⟨index, slot, hash, request, entry, chunk, chunk', d₂, saved, -, -, -, hsaved, rfl⟩ :=
        hcompletes
      have hended := hr.outside (htrack (clk 0)) (saveChunk_frame hsaved).1
      exact hr.assigned (hr.abort hended p) hok fun _ => hr.reopened hended hok
  | denied p =>
    obtain ⟨rfl, -⟩ := Prod.mk.inj (Except.ok.inj hs)
    exact hr.abort h p
  | crash clk rto =>
    obtain ⟨crashed, d₁, hcrash, rfl⟩ := downloadPeerCrashWrapper_outcome hs
    have h₁ := hr.crash h (downloadPeerCrash_outcome hcrash)
    split
    · rename_i q entry chunk hpick
      obtain ⟨hq, hstart⟩ := hok _ _ _ _ hcrash hpick
      exact hr.started h₁ hq hstart
    · exact h₁
  | finish =>
    obtain ⟨rfl, -⟩ := Prod.mk.inj (Except.ok.inj hs)
    exact hr.outside h (finishRequest_frame d).1
  | userGet outf parsed => exact hr.outside h (userGet_frame hs).1

end SlotRule

/-- What a property of the slots must be kept by: the tracker, `start_download`, `abort_download`. -/
structure SlotKept (P : DownloadSlot → Prop) : Prop where
  track : ∀ (slot : DownloadSlot) (seq length : Nat) (now : Time), seq < 2 ^ 32 → P slot → P { slot with
    lastAckedRecord := advanceRecords seq length slot.lastAckedRecord, downloadLastTime := now }
  opened : ∀ (slot : DownloadSlot) (p : Int) (hash : Hash) (now : Time),
    P slot → P (slot.opened p hash now)
  abort : ∀ slot : DownloadSlot, P slot.abort

namespace SlotKept

variable (hk : SlotKept P) (h : Slots P d)

include hk h

theorem trackDataPacket {seq : Nat} (hseq : seq < 2 ^ 32) (length : Nat) (now : Time) :
    Slots P (trackDataPacket p seq length now d).2 := by
  cases hfound : getDownloadIndexById p d with
  | none => rwa [trackDataPacket_none hfound]
  | some r =>
    obtain ⟨index, slot⟩ := r
    have hget := getDownloadIndexById_get hfound
    rw [trackDataPacket_eq hfound]
    exact h.write hget (hk.track slot seq length now hseq (h index slot hget))

theorem abortDownload (p : Int) : Slots P (abortDownload p d) := by
  cases hfound : getDownloadIndexById p d with
  | none => rwa [abortDownload_none hfound]
  | some r =>
    rw [abortDownload_eq hfound]
    exact h.write (getDownloadIndexById_get hfound) (hk.abort r.2)

theorem opened_slots (p : Int) (hash : Hash) (clk : Clock) : Slots P (d.opened p hash clk) := by
  cases hfree : getDownloadIndexById idNull d with
  | none => rwa [opened_none (streams_zero.mpr hfree)]
  | some r =>
    obtain ⟨index, slot⟩ := r
    have hget := getDownloadIndexById_get hfree
    rw [opened_some hfree]
    exact hk.trackDataPacket (h.write hget (hk.opened slot p hash (clk 1) (h index slot hget)))
      (by decide) 1 (clk 2)

omit h in
theorem rule : SlotRule (Slots P) (fun _ => True) fun _ _ => True where
  outside h hslots := h.congr hslots
  track h _ hseq length now := hk.trackDataPacket h hseq length now
  abort h p := hk.abortDownload h p
  opened h _ _ hash clk := hk.opened_slots h _ hash clk
  start_congr _ _ := trivial
  reopened _ _ := trivial

theorem step {ev : DownloadEvent} (hs : (downloadMachine env).step ev d = .ok (d', l)) :
    Slots P d' := by
  refine hk.rule.step h ?_ hs
  cases ev with
  | ihave src p packet clk => exact ⟨trivial, fun _ => trivial⟩
  | crash clk rto => exact fun _ _ _ _ _ _ => ⟨trivial, trivial⟩
  | _ => trivial

end SlotKept

end Bittorrent
