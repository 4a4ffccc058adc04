import Bittorrent.Download.Moves

/-!
# Download integrity

For a request whose ids are distinct and within the file, the region of every OWNED entry hashes to
the entry's hash, and the has-chunk table grows by hashes of verified bytes only (`FileInv`),
whatever packets arrive and whichever streams time out. The regions of two entries do not overlap,
so a later write leaves the earlier ones alone.

`FileInv` has a clause for each thing that could go wrong. An OWNED entry has its bytes in the file
(`OwnedInFile`); the entry still has its line, so the region is the one its id names; the file written is
the one of the request. A move that completes nothing keeps it because it makes no entry OWNED
(`OwnedInFile.change`), and the one move that writes, `FileInv.store`, puts bytes that were just hashed into
the region of its own id. That the regions of the other OWNED entries are not touched is
`fileChunk_write_ne`: distinct ids are at least a chunk apart, and no offset wraps since the ids fit
(`chunkOffset_eq`). The induction over the run is that of the moves.
-/

namespace Bittorrent

variable {env : Env} {valid linked : Prop} {d d' : Downloads} {log l : DownloadLog} {p : Int}
  {entry : Nat} {request : Request} {chunk chunk' : Chunk} {data : Memory} {outf : String}
  {lines : List (Int × Hash)} {has : List Chunk} {file : Memory}

/-! ## The output file -/

/-- The bytes of a chunk id in the output file. -/
def fileChunk (file : Memory) (chunkId : Int) : List UInt8 :=
  readBytes file (chunkId.toNat * btChunkSize) btChunkSize

/-- The ids of a request file: distinct, and their offsets fit an `int`. -/
structure FileIds (lines : List (Int × Hash)) : Prop where
  distinct : ∀ (i j : Nat) (a b : Int × Hash), lines[i]? = some a → lines[j]? = some b →
    a.1 = b.1 → i = j
  range : ∀ (i : Nat) (a : Int × Hash), lines[i]? = some a → 0 ≤ a.1 ∧ a.1 < 4096

theorem chunkOffset_eq {chunkId : Int} (h0 : 0 ≤ chunkId) (h1 : chunkId < 4096) :
    (chunkOffset chunkId).toNat = chunkId.toNat * btChunkSize := by
  rw [chunkOffset, toInt32, Int.bmod_eq_of_le]
  all_goals simp only [btChunkSize]; omega

/-- A `write` of a chunk to the file writes all its bytes. -/
def Env.WritesAll (env : Env) (name : String) : Prop := ∀ offset, btChunkSize ≤ env.writes name offset

theorem fileChunk_write {chunkId : Int} (h0 : 0 ≤ chunkId) (h1 : chunkId < 4096) {written : Nat}
    (hall : btChunkSize ≤ written) :
    fileChunk (writeFile file data btChunkSize (chunkOffset chunkId) written) chunkId =
      readBytes data 0 btChunkSize := by
  rw [fileChunk, writeFile, chunkOffset_eq h0 h1, Nat.min_eq_left hall, readBytes_copyBytes]

/-- The regions of different ids do not overlap. -/
theorem fileChunk_write_ne {chunkId other : Int} (h0 : 0 ≤ chunkId) (h1 : chunkId < 4096)
    (hother : 0 ≤ other) (hne : other ≠ chunkId) (written : Nat) :
    fileChunk (writeFile file data btChunkSize (chunkOffset chunkId) written) other =
      fileChunk file other := by
  have hle := Nat.min_le_left btChunkSize written
  rw [fileChunk, writeFile, chunkOffset_eq h0 h1, readBytes_copyBytes_of_disjoint, fileChunk]
  simp only [btChunkSize] at *
  omega

/-! ## The invariant -/

/-- An entry is built from its line; an OWNED one has its bytes in the file. -/
def OwnedInFile (env : Env) (lines : List (Int × Hash)) (file : Memory) (entry : Nat)
    (chunk : Chunk) : Prop :=
  lines[entry]? = some chunk.line ∧
    (chunk.state = .owned → env.shahash (fileChunk file chunk.id) = chunk.hash)

/-- A hash of the has-chunk table was there from the start, or bytes with that hash were verified. -/
def HashVerified (env : Env) (has : List Chunk) (log : DownloadLog) (hash : Hash) : Prop :=
  (∃ c ∈ has, c.hash = hash) ∨
    ∃ bytes, .verified hash bytes ∈ log ∧ bytes.length = btChunkSize ∧ env.shahash bytes = hash

structure FileInv (env : Env) (outf : String) (lines : List (Int × Hash)) (has : List Chunk)
    (d : Downloads) (log : DownloadLog) : Prop where
  name : ∀ request, d.currentRequest = some request → request.filename = some outf
  owned : Entries (OwnedInFile env lines (d.files outf)) d
  table : ∀ c ∈ d.hasChunkTable, HashVerified env has log c.hash

theorem HashVerified.append {hash : Hash} (h : HashVerified env has log hash) (l : DownloadLog) :
    HashVerified env has (log ++ l) hash := by
  rcases h with h | ⟨bytes, hmem, h⟩
  · exact Or.inl h
  · exact Or.inr ⟨bytes, List.mem_append_left l hmem, h⟩

/-- An entry that is not OWNED needs nothing of the file. -/
theorem OwnedInFile.change (h : OwnedInFile env lines file entry chunk)
    (hline : chunk'.line = chunk.line) (hstate : chunk'.state = .owned → chunk.state = .owned) :
    OwnedInFile env lines file entry chunk' := by
  obtain ⟨hget, howned⟩ := h
  have hid : chunk'.id = chunk.id := congrArg Prod.fst hline
  have hhash : chunk'.hash = chunk.hash := congrArg Prod.snd hline
  exact ⟨hline ▸ hget, fun hs => by rw [hid, hhash]; exact howned (hstate hs)⟩

theorem name_writeChunk (h : ∀ request, d.currentRequest = some request →
    request.filename = some outf) : ∀ request,
      (d.writeChunk entry chunk).currentRequest = some request → request.filename = some outf := by
  intro request hrequest
  obtain ⟨request', hrequest', rfl⟩ := Option.map_eq_some_iff.mp hrequest
  exact h request' hrequest'

theorem FileInv.writeChunk (h : FileInv env outf lines has d log) (chunk' : Chunk)
    (hrequest : d.currentRequest = some request) (hget : request.chunks[entry]? = some chunk)
    (hline : chunk'.line = chunk.line) (hstate : chunk'.state = .owned → chunk.state = .owned)
    (l : DownloadLog) : FileInv env outf lines has (d.writeChunk entry chunk') (log ++ l) :=
  ⟨name_writeChunk h.name,
    h.owned.writeChunk hrequest hget (fun _ _ _ hc => hc)
      ((h.owned request entry chunk hrequest hget).change hline hstate),
    fun c hmem => (h.table c hmem).append l⟩

theorem FileInv.congr (h : FileInv env outf lines has d log)
    (hrequest : d'.currentRequest = d.currentRequest) (hfiles : d'.files = d.files)
    (htable : d'.hasChunkTable = d.hasChunkTable) (l : DownloadLog) :
    FileInv env outf lines has d' (log ++ l) :=
  ⟨fun request hr => h.name request (hrequest ▸ hr), by rw [hfiles]; exact h.owned.congr hrequest,
    fun c hmem => (h.table c (htable ▸ hmem)).append l⟩

theorem FileInv.resetChunk (h : FileInv env outf lines has d log) (hash : Hash) :
    FileInv env outf lines has (resetChunk hash d) log := by
  unfold Bittorrent.resetChunk
  split
  · exact h
  · rename_i request hrequest
    split
    · exact h
    · rename_i entry chunk hfound
      have hwrite := h.writeChunk (chunk.reset .notStarted) hrequest
        (Table.lookup_get hfound) rfl (fun hs => by cases hs) []
      rwa [List.append_nil] at hwrite

/-! ## Moves -/

theorem mem_updateIhaveTable {table : List Chunk} {c : Chunk}
    (h : c ∈ updateIhaveTable env chunk table) : c ∈ table ∨ c.hash = chunk.hash := by
  unfold updateIhaveTable at h
  split_ifs at h
  · exact Or.inl h
  · rcases List.mem_append.mp h with h | h
    · exact Or.inl h
    · rw [List.mem_singleton.mp h]
      exact Or.inr rfl

theorem FileInv.store (h : FileInv env outf lines has d log) (hids : FileIds lines)
    (hwrites : env.WritesAll outf)
    (hrequest : d.currentRequest = some request) (hget : request.chunks[entry]? = some chunk)
    (hline : chunk'.line = chunk.line)
    (hgood : env.shahash (readBytes data 0 btChunkSize) = chunk'.hash)
    (hmem : .verified chunk'.hash (readBytes data 0 btChunkSize) ∈ l) :
    FileInv env outf lines has
      ((d.store env request.filename chunk' data).writeChunk entry (chunk'.reset .owned))
      (log ++ l) := by
  obtain ⟨hlines, -⟩ := h.owned request entry chunk hrequest hget
  rw [← hline] at hlines
  obtain ⟨h0, h1⟩ : 0 ≤ chunk'.id ∧ chunk'.id < 4096 := hids.range entry _ hlines
  have hfile : (d.store env request.filename chunk' data).files outf =
      writeFile (d.files outf) data btChunkSize (chunkOffset chunk'.id)
        (env.writes outf (chunkOffset chunk'.id)) := by
    simp only [Downloads.store, storeChunk, h.name request hrequest, Function.update_self]
  refine ⟨name_writeChunk h.name, ?_, fun c hc => ?_⟩
  · change Entries (OwnedInFile env lines ((d.store env request.filename chunk' data).files outf)) _
    rw [hfile]
    refine Entries.writeChunk (d := d.store env request.filename chunk' data)
      (h.owned.congr rfl) hrequest hget (fun e c hne hc => ⟨hc.1, fun hs => ?_⟩) ⟨hlines, fun _ => ?_⟩
    · have hne' : c.id ≠ chunk'.id := fun he => hne (hids.distinct e entry _ _ hc.1 hlines he)
      have hpos : 0 ≤ c.id := (hids.range e _ hc.1).1
      rw [fileChunk_write_ne h0 h1 hpos hne']
      exact hc.2 hs
    · exact (congrArg env.shahash (fileChunk_write h0 h1 (hwrites _))).trans hgood
  · rcases mem_updateIhaveTable hc with hold | hnew
    · exact (h.table c hold).append l
    · rw [hnew]
      exact Or.inr ⟨_, List.mem_append_right log hmem, readBytes_length .., hgood⟩

theorem fileInv_move (h : FileInv env outf lines has d log) (hids : FileIds lines)
    (hwrites : env.WritesAll outf)
    (hm : Move env valid linked d l d') : FileInv env outf lines has d' (log ++ l) := by
  cases hm with
  | sent dst m => exact h.congr rfl rfl rfl _
  | connected connections _ => exact h.congr (by rfl) (by rfl) (by rfl) []
  | tracked records now hslot _ => exact h.congr (by rfl) (by rfl) (by rfl) []
  | @marked request entry chunk hlink hentry =>
    exact h.writeChunk { chunk with state := .receiving } hentry.current hentry.get rfl
      (fun hs => by cases hs) _
  | @opened request entry index chunk slot p now hentry hslot hpeer =>
    have hpick := h.writeChunk { chunk with state := .receiving } hentry.current
      hentry.get rfl (fun hs => by cases hs) []
    rw [List.append_nil] at hpick
    exact hpick.congr (by rfl) (by rfl) (by rfl) _
  | accepted packet htarget hsave =>
    have hstate := (saveDataPacket_ok hsave).2.2.1
    exact h.writeChunk _ htarget.current htarget.get (saveDataPacket_line hsave)
      (fun hs => hstate ▸ hs) _
  | failed packet htarget hfull _ _ _ =>
    have hfail := h.writeChunk _ htarget.current htarget.get (hfull.line .notStarted)
      (fun hs => by cases hs) []
    rw [List.append_nil] at hfail
    exact hfail.congr (by rfl) (by rfl) (by rfl) _
  | verified packet htarget hfull hgood _ _ =>
    rw [← List.append_nil (log ++ _)]
    refine FileInv.congr (h.store hids hwrites htarget.current htarget.get
      (saveDataPacket_line hfull.save) hgood ?_) (by rfl) (by rfl) (by rfl) []
    simp
  | denied hlink hslot => exact h.congr (by rfl) (by rfl) (by rfl) []
  | @crashed i index idle slot hash request _ _ _ hslot _ _ =>
    have habort : FileInv env outf lines has (d.write index slot.abort) (log ++ []) :=
      h.congr (by rfl) (by rfl) (by rfl) []
    exact habort.resetChunk hash
  | finished hall =>
    exact ⟨fun request hr => (by cases hr), Entries.none rfl,
      fun c hmem => (h.table c hmem).append []⟩

/-! ## Runs -/

/-- The runs of one request: no GET line is read. -/
def NoUserGet (_ : Downloads) (_ : DownloadLog) : DownloadEvent → Prop
  | .userGet _ _ => False
  | _ => True

/-- A request as `parse_has_get_chunk_file` builds it, and the has-chunk table it begins with. -/
def Requested (outf : String) (lines : List (Int × Hash)) (has : List Chunk) (d : Downloads) : Prop :=
  d.currentRequest = some ⟨some outf, lines.map requestEntry⟩ ∧ d.hasChunkTable = has

/-- A save that returns 1 for bytes with another hash leaves the file and the has-chunk table as they
were, and the entry as it was before it was picked. -/
def FailureClean (env : Env) : Prop :=
  ∀ (d : Downloads) (request : Request) (entry : Nat) (chunk : Chunk) (data : Memory),
    d.currentRequest = some request → request.chunks[entry]? = some chunk →
    chunk.receivedByteNumber = btChunkSize → chunk.state ≠ .owned → chunk.data = some data →
    env.shahash (readBytes data 0 btChunkSize) ≠ chunk.hash →
    ∃ d' l, saveChunk env entry d = .ok (some (d', l)) ∧ d'.files = d.files ∧
      d'.hasChunkTable = d.hasChunkTable ∧ d'.currentRequest = some { request with
        chunks := request.chunks.set entry { chunk with
          state := .notStarted, data := none, receivedSeqNumber := 0, receivedByteNumber := 0 } }

theorem failureClean (env : Env) : FailureClean env := by
  intro d request entry chunk data hrequest hget hfull hstate hdata hbad
  refine ⟨d.writeChunk entry (chunk.reset .notStarted), [.completed entry], ?_, rfl, rfl,
    writeChunk_currentRequest hrequest _ _⟩
  simp only [saveChunk, hrequest, hget, hdata]
  rw [if_pos ⟨hfull, hstate⟩, if_neg hbad]
  rfl

/-- If every `write` to the output file writes all its bytes: in every state that packets and timeouts
lead to, every OWNED entry has its bytes in the output file, every hash that `find_chunk` accepts was
there from the start or was verified, and a failed verification leaves no trace. -/
theorem owned_chunks_in_file (hwrites : env.WritesAll outf) (hids : FileIds lines)
    (h : (downloadMachine env).Reach (Requested outf lines has) NoUserGet d log) :
    (∀ request, d.currentRequest = some request → ∀ chunk ∈ request.chunks,
      chunk.state = .owned → env.shahash (fileChunk (d.files outf) chunk.id) = chunk.hash) ∧
    (∀ hash, findChunk hash d.hasChunkTable = true → HashVerified env has log hash) ∧
    FailureClean env := by
  have hinv : FileInv env outf lines has d log := by
    refine run_invariant False False (fun d hd => ?_)
      (fun _ _ _ _ hv => hv.elim) (fun _ _ _ _ _ hl => hl.elim)
      (fun d log l d' hI hm => fileInv_move hI hids hwrites hm) (fun _ _ _ _ _ _ _ hok _ => hok.elim) h
    obtain ⟨hrequest, rfl⟩ := hd
    refine ⟨fun request hr => ?_, .requested hrequest fun e line hline => ?_,
      fun c hmem => Or.inl ⟨c, hmem, rfl⟩⟩
    · rw [hrequest] at hr
      cases hr
      rfl
    · exact ⟨hline, fun hs => by cases hs⟩
  refine ⟨fun request hrequest chunk hmem hs => ?_, fun hash hfound => ?_, failureClean env⟩
  · obtain ⟨entry, hget⟩ := List.mem_iff_getElem?.mp hmem
    exact (hinv.owned request entry chunk hrequest hget).2 hs
  · obtain ⟨c, hmem, hc⟩ := List.any_eq_true.mp hfound
    exact of_decide_eq_true hc ▸ hinv.table c hmem

/-- A chunk of zeros: peer 1 offers it and sends its packets in their order. -/
def zeroChunk : List DownloadEvent :=
  .ihave sampleSrc 1 (samplePacket (.ihave [sampleHash 0])) (fun _ => 0) ::
    ((List.range (maxPacketPerChunk - 1)).map (fun n =>
        .data sampleSrc 1 (samplePacket (.data (n + 1) (List.replicate maxPayloadSize 0))) fun _ => 0) ++
      [.data sampleSrc 1 (samplePacket (.data maxPacketPerChunk (List.replicate 436 0))) fun _ => 0])

def zeroStart : Downloads :=
  { initDownloads 1 [] fun _ _ => 0 with currentRequest := some ⟨some "out", [requestEntry (0, sampleHash 0)]⟩ }

theorem zeroChunk_run : ((downloadMachine sampleEnv).run zeroChunk zeroStart).toOption.any (fun r =>
    r.1.currentRequest.map (fun request => request.chunks.map (·.state)) = some [.owned]) = true := by
  decide +kernel

/-- The chunk of zeros is OWNED. -/
theorem owned_chunks_in_file_one : ∃ (d : Downloads) (log : DownloadLog),
    d.currentRequest.map (fun request => request.chunks.map (·.state)) = some [.owned] ∧
    (∀ request, d.currentRequest = some request → ∀ chunk ∈ request.chunks,
      chunk.state = .owned → sampleEnv.shahash (fileChunk (d.files "out") chunk.id) = chunk.hash) ∧
    (∀ hash, findChunk hash d.hasChunkTable = true → HashVerified sampleEnv [] log hash) ∧
    FailureClean sampleEnv := by
  have hids : FileIds [(0, sampleHash 0)] := by
    constructor
    · intro i j a b hi hj _
      have := (List.getElem?_eq_some_iff.mp hi).1
      have := (List.getElem?_eq_some_iff.mp hj).1
      simp only [List.length_singleton] at *
      omega
    · intro i a hi
      rw [List.mem_singleton.mp (List.mem_of_getElem? hi)]
      decide
  have hstart : (downloadMachine sampleEnv).Reach (Requested "out" [(0, sampleHash 0)] []) NoUserGet zeroStart [] :=
    .start ⟨rfl, rfl⟩
  have hholds : ∀ ev ∈ zeroChunk, ∀ d, NoUserGet d [] ev := by
    intro ev hmem d
    simp only [zeroChunk, List.mem_cons, List.mem_append, List.mem_map, List.not_mem_nil, or_false] at hmem
    rcases hmem with rfl | ⟨n, -, rfl⟩ | rfl <;> trivial
  have hrun := zeroChunk_run
  cases hresult : (downloadMachine sampleEnv).run zeroChunk zeroStart with
  | error f =>
    rw [hresult] at hrun
    cases hrun
  | ok r =>
    obtain ⟨d, log⟩ := r
    have hreach := hstart.run (C := fun d ev => NoUserGet d [] ev)
      (fun _ _ ev hev => by cases ev <;> exact hev) _ (.of_forall _ _ hholds) hresult
    rw [hresult] at hrun
    exact ⟨d, _, of_decide_eq_true hrun, owned_chunks_in_file (fun _ => le_refl _) hids hreach⟩

end Bittorrent
