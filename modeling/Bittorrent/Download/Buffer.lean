import Bittorrent.Download.Moves

/-!
# The chunk buffer

An entry's byte count is the size of the payloads saved to it since it was picked, and only a
RECEIVING entry has a buffer (`Buffered`), in every run. So `save_data_packet` stays inside the
buffer exactly when the payload still fits, in an entry that was picked (`Fits`).

`savedBytes` reads the log backwards: a save adds its payload, a pick starts again from nothing. `Buffered`
says that this is the entry's byte count, and each move is checked against it (`buffered_move`); a move that
is about another entry leaves both sides as they are (`Buffered.quiet`).

That a slot with a hash has a request behind it is not a matter of one entry but of numbers: no more slots
have a hash than entries are RECEIVING (`named_le_receiving_move`). A pick makes one more of each, or only
an entry more when no slot is free; the end of a stream takes one of each away. So when the last chunk is
finished, and with it the request, no slot has a hash any longer (`DownloadInv.hasRequest`).

With the invariant, `inboundData_returns_iff` only follows the DATA case down to the copy:
`Buffered.save_iff` is the one place where a save may fault.
-/

namespace Bittorrent

variable {env : Env} {valid linked : Prop} {d d' : Downloads} {log l : DownloadLog} {p : Int}
  {index entry : Nat} {slot : DownloadSlot} {hash : Hash} {request : Request}
  {chunk chunk' : Chunk} {packet : Incoming}

/-! ## Bytes saved to an entry -/

def savedAdd (entry : Nat) (n : Nat) : DownloadAction → Nat
  | .picked e => if e = entry then 0 else n
  | .accepted _ _ _ e size => if e = entry then n + size else n
  | _ => n

/-- The size of the payloads accepted for an entry since it was last picked. -/
def savedBytes (entry : Nat) (log : DownloadLog) : Nat := log.foldl (savedAdd entry) 0

theorem savedBytes_append (entry : Nat) (log l : DownloadLog) :
    savedBytes entry (log ++ l) = l.foldl (savedAdd entry) (savedBytes entry log) :=
  List.foldl_append

/-! ## The invariant -/

structure Buffered (log : DownloadLog) (entry : Nat) (chunk : Chunk) : Prop where
  bound : chunk.receivedByteNumber ≤ btChunkSize
  saved : chunk.state = .receiving → chunk.receivedByteNumber = savedBytes entry log
  idle : chunk.state ≠ .receiving → chunk.data = none
  empty : chunk.data = none → chunk.receivedByteNumber = 0

theorem Buffered.quiet (h : Buffered log entry chunk)
    (hl : l.foldl (savedAdd entry) (savedBytes entry log) = savedBytes entry log) :
    Buffered (log ++ l) entry chunk :=
  ⟨h.bound, fun hs => by rw [savedBytes_append, hl, h.saved hs], h.idle, h.empty⟩

theorem Buffered.reset {state : ChunkState} (hstate : state ≠ .receiving) :
    Buffered log entry (chunk.reset state) :=
  ⟨Nat.zero_le _, fun h => absurd h hstate, fun _ => rfl, fun _ => rfl⟩

theorem Buffered.pick (h : Buffered log entry chunk) (hstate : chunk.state = .notStarted)
    (hl : savedBytes entry (log ++ l) = 0) :
    Buffered (log ++ l) entry { chunk with state := .receiving } := by
  have hnone := h.idle (by rw [hstate]; decide)
  exact ⟨h.bound, fun _ => by rw [hl]; exact h.empty hnone, fun hne => absurd rfl hne, h.empty⟩

theorem Buffered.save (h : Buffered log entry chunk) (hsave : saveDataPacket packet chunk = .ok chunk')
    (hl : savedBytes entry (log ++ l) = savedBytes entry log + packet.payloadSize) :
    Buffered (log ++ l) entry chunk' := by
  by_cases howned : chunk.state = .owned
  · rw [saveDataPacket, if_pos howned] at hsave
    cases hsave
    exact ⟨h.bound, fun hs => absurd (howned.symm.trans hs) (by decide), h.idle, h.empty⟩
  · obtain ⟨-, -, hstate, hadd⟩ := saveDataPacket_ok hsave
    rw [saveDataPacket_eq packet howned] at hsave
    by_cases hsize : packet.payloadSize = 0
    · rw [if_pos hsize] at hsave
      cases hsave
      refine ⟨h.bound, fun hs => by rw [hl, hsize]; exact h.saved hs, fun hne => ?_, fun hnone => ?_⟩
      · change chunk.buffer = none
        rw [Chunk.buffer, if_neg (fun hand => hne hand.2)]
        exact h.idle hne
      · refine h.empty ?_
        simp only [Chunk.buffer] at hnone
        split_ifs at hnone
        exact hnone
    · rw [if_neg hsize] at hsave
      split at hsave
      · cases hsave
      · rename_i buf hbuf
        split_ifs at hsave with hfits
        cases hsave
        have hreceiving : chunk.state = .receiving := by
          by_contra hne
          have hnone := h.idle hne
          rw [Chunk.buffer, if_neg (fun hand => hne hand.2), hnone] at hbuf
          cases hbuf
        refine ⟨hfits, fun _ => ?_, fun hne => absurd hreceiving hne, fun hnone => by cases hnone⟩
        rw [hl, ← h.saved hreceiving]

/-! ## Moves -/

theorem savedBytes_accepted (entry : Nat) (log : DownloadLog) (index : Nat) (p : Int) (seq size : Nat)
    (hl : ∀ n, l.foldl (savedAdd entry) n = n) :
    savedBytes entry (log ++ .accepted index p seq entry size :: l) =
      savedBytes entry log + size := by
  rw [savedBytes_append, List.foldl_cons, hl, savedAdd, if_pos rfl]

theorem buffered_move (h : Entries (Buffered log) d) (hm : Move env valid linked d l d') :
    Entries (Buffered (log ++ l)) d' := by
  cases hm with
  | sent dst m => exact h.mono fun _ _ hb => hb.quiet rfl
  | connected connections _ => exact (h.congr rfl).mono fun _ _ hb => hb.quiet rfl
  | tracked records now hslot _ => exact (h.congr rfl).mono fun _ _ hb => hb.quiet rfl
  | @marked request entry chunk hlink hentry =>
    have hb := h request entry chunk hentry.current hentry.get
    refine h.writeChunk hentry.current hentry.get (fun e c hne hc => hc.quiet ?_)
      (hb.pick hentry.state ?_)
    · simp [savedAdd, Ne.symm hne]
    · simp [savedBytes_append, savedAdd]
  | @opened request entry index chunk slot p now hentry hslot hpeer =>
    have hb := h request entry chunk hentry.current hentry.get
    refine (h.writeChunk hentry.current hentry.get (fun e c hne hc => hc.quiet ?_)
      (hb.pick hentry.state ?_)).congr rfl
    · simp [savedAdd, Ne.symm hne]
    · simp [savedBytes_append, savedAdd]
  | @accepted p index entry slot hash request chunk chunk' packet htarget hsave =>
    have hb := h request entry chunk htarget.current htarget.get
    refine h.writeChunk htarget.current htarget.get (fun e c hne hc => hc.quiet ?_)
      (hb.save hsave ?_)
    · simp [savedAdd, Ne.symm hne]
    · exact savedBytes_accepted _ _ _ _ _ _ fun _ => rfl
  | @failed p index entry slot hash request chunk chunk' data packet htarget hfull _ _ _ =>
    refine (h.writeChunk htarget.current htarget.get (fun e c hne hc => hc.quiet ?_)
      (Buffered.reset (by decide))).congr rfl
    simp [savedAdd, Ne.symm hne]
  | @verified p index entry slot hash request chunk chunk' data packet htarget hfull _ _ _ =>
    refine (Entries.writeChunk (h.congr rfl) htarget.current htarget.get
      (fun e c hne hc => hc.quiet ?_) (Buffered.reset (by decide))).congr rfl
    simp [savedAdd, Ne.symm hne]
  | denied _ _ => exact (h.congr rfl).mono fun _ _ hb => hb.quiet rfl
  | crashed _ _ _ _ _ _ =>
    exact Entries.resetChunk (h.congr rfl) (fun _ _ hb => hb.quiet rfl)
      fun _ _ _ => Buffered.reset (by decide)
  | finished _ => exact Entries.none rfl

/-- An active slot has the hash of the chunk it downloads. -/
def SlotsNamed : Downloads → Prop :=
  Slots fun slot => slot.downloadId ≠ idNull → slot.downloadChunk ≠ none

theorem slotsNamed_move (h : SlotsNamed d) (hm : Move env valid linked d l d') : SlotsNamed d' := by
  refine Slots.move h hm (fun _ _ _ _ hs => hs) (fun _ _ _ _ _ _ _ => ?_) fun _ hne => ?_
  · exact Option.some_ne_none _
  · exact absurd rfl hne

/-! ## Slots with a hash and RECEIVING entries -/

def Chunk.receiving (chunk : Chunk) : Bool := chunk.state = .receiving

/-- The slots that have the hash of a chunk: the active ones, and those opened for `ID_NULL`. -/
def namedSlots (d : Downloads) : Nat := d.slots.countP fun slot => slot.downloadChunk.isSome

def receivingEntries (d : Downloads) : Nat :=
  match d.currentRequest with
  | none => 0
  | some request => request.chunks.countP Chunk.receiving

theorem receivingEntries_some (h : d.currentRequest = some request) :
    receivingEntries d = request.chunks.countP Chunk.receiving := by
  rw [receivingEntries, h]

theorem receivingEntries_none (h : d.currentRequest = none) : receivingEntries d = 0 := by
  rw [receivingEntries, h]

theorem receivingEntries_writeChunk (chunk' : Chunk) (hrequest : d.currentRequest = some request)
    (hget : request.chunks[entry]? = some chunk) :
    receivingEntries (d.writeChunk entry chunk') + (if chunk.receiving then 1 else 0) =
      receivingEntries d + (if chunk'.receiving then 1 else 0) := by
  rw [receivingEntries_some hrequest,
    receivingEntries_some (writeChunk_currentRequest hrequest entry chunk')]
  exact Table.countP_set hget

theorem Chunk.receiving_eq_true : chunk.receiving = true ↔ chunk.state = .receiving := by
  rw [Chunk.receiving, decide_eq_true_eq]

theorem receivingEntries_pick (hentry : Unfinished d request entry chunk) :
    receivingEntries (d.writeChunk entry { chunk with state := .receiving }) =
      receivingEntries d + 1 := by
  have h := receivingEntries_writeChunk { chunk with state := .receiving } hentry.current
    hentry.get
  rw [if_neg (fun hr => by simp [Chunk.receiving, hentry.state] at hr),
    if_pos (Chunk.receiving_eq_true.mpr rfl)] at h
  exact h

theorem receivingEntries_drop (chunk' : Chunk) (hrequest : d.currentRequest = some request)
    (hget : request.chunks[entry]? = some chunk) (hstate : chunk.state = .receiving)
    (hstate' : chunk'.state ≠ .receiving) :
    receivingEntries (d.writeChunk entry chunk') + 1 = receivingEntries d := by
  have h := receivingEntries_writeChunk chunk' hrequest hget
  rw [if_pos (Chunk.receiving_eq_true.mpr hstate),
    if_neg (fun hr => hstate' (Chunk.receiving_eq_true.mp hr))] at h
  exact h

theorem receivingEntries_same (hrequest : d.currentRequest = some request)
    (hget : request.chunks[entry]? = some chunk) (hstate : chunk'.state = chunk.state) :
    receivingEntries (d.writeChunk entry chunk') = receivingEntries d := by
  have h := receivingEntries_writeChunk chunk' hrequest hget
  rw [Chunk.receiving, Chunk.receiving, hstate] at h
  exact Nat.add_right_cancel h

theorem namedSlots_write (slot' : DownloadSlot) (hget : d.slots[index]? = some slot) :
    namedSlots (d.write index slot') + (if slot.downloadChunk.isSome then 1 else 0) =
      namedSlots d + (if slot'.downloadChunk.isSome then 1 else 0) :=
  Table.countP_set hget

theorem namedSlots_abort (hget : d.slots[index]? = some slot) (hnamed : slot.downloadChunk ≠ none) :
    namedSlots (d.write index slot.abort) + 1 = namedSlots d := by
  have h := namedSlots_write slot.abort hget
  rw [if_pos (Option.isSome_iff_ne_none.mpr hnamed)] at h
  exact h

theorem receivingEntries_resetChunk (hash : Hash) (d : Downloads) :
    receivingEntries d ≤ receivingEntries (resetChunk hash d) + 1 := by
  unfold resetChunk
  split
  · exact Nat.le_succ _
  · rename_i request hrequest
    split
    · exact Nat.le_succ _
    · rename_i entry chunk hfound
      have h := receivingEntries_writeChunk (chunk.reset .notStarted) hrequest
        (Table.lookup_get hfound)
      have hreset : (chunk.reset .notStarted).receiving = false := rfl
      rw [hreset] at h
      simp only [Bool.false_eq_true, if_false] at h
      change receivingEntries d ≤ receivingEntries (d.writeChunk entry (chunk.reset .notStarted)) + 1
      split_ifs at h <;> omega

theorem Filled.receiving {data : Memory} (h : Filled packet chunk chunk' data)
    (hb : Buffered log entry chunk) : chunk.state = .receiving := by
  have hb' := hb.save (l := [.accepted 0 0 0 entry packet.payloadSize]) h.save
    (savedBytes_accepted entry log 0 0 0 packet.payloadSize fun _ => rfl)
  obtain ⟨-, -, hstate, -⟩ := saveDataPacket_ok h.save
  by_contra hne
  have hnone := hb'.idle (hstate ▸ hne)
  rw [h.data] at hnone
  cases hnone

theorem named_le_receiving_close {data : Memory} {state : ChunkState}
    (h : namedSlots d ≤ receivingEntries d) (hb : Entries (Buffered log) d)
    (htarget : Target d p index slot hash request entry chunk)
    (hfull : Filled packet chunk chunk' data) (hstate : state ≠ .receiving) :
    namedSlots (d.write index slot.abort) ≤
      receivingEntries (d.writeChunk entry (chunk'.reset state)) := by
  have hslots := namedSlots_abort (getDownloadIndexById_get htarget.found)
    (htarget.named ▸ Option.some_ne_none hash)
  have hreceiving := hfull.receiving (hb request entry chunk htarget.current htarget.get)
  have hentries := receivingEntries_drop (chunk'.reset state) htarget.current htarget.get
    hreceiving hstate
  omega

theorem named_le_receiving_move (h : namedSlots d ≤ receivingEntries d)
    (hb : Entries (Buffered log) d) (hnamed : SlotsNamed d) (hm : Move env valid linked d l d') :
    namedSlots d' ≤ receivingEntries d' := by
  cases hm with
  | sent dst m => exact h
  | connected connections _ => exact h
  | @tracked index slot records now hslot _ =>
    have hcount := namedSlots_write (d := d)
      { slot with lastAckedRecord := records, downloadLastTime := now } hslot
    have hsame : namedSlots (d.write index
        { slot with lastAckedRecord := records, downloadLastTime := now }) = namedSlots d :=
      Nat.add_right_cancel hcount
    rw [hsame]
    exact h
  | @marked request entry chunk hlink hentry =>
    rw [receivingEntries_pick hentry]
    exact Nat.le_succ_of_le h
  | @opened request entry index chunk slot p now hentry hslot hpeer =>
    have hcount := namedSlots_write { slot with
      downloadId := p, downloadChunk := some chunk.hash, downloadLastTime := now }
      (getDownloadIndexById_get hslot)
    have hpick := receivingEntries_pick hentry
    change namedSlots (d.write index _) ≤
      receivingEntries (d.writeChunk entry { chunk with state := .receiving })
    split_ifs at hcount <;> omega
  | @accepted p index entry slot hash request chunk chunk' packet htarget hsave =>
    rw [receivingEntries_same htarget.current htarget.get (saveDataPacket_ok hsave).2.2.1]
    exact h
  | failed packet htarget hfull _ _ _ =>
    exact named_le_receiving_close h hb htarget hfull (by decide : ChunkState.notStarted ≠ _)
  | verified packet htarget hfull _ _ _ =>
    exact named_le_receiving_close h hb htarget hfull (by decide : ChunkState.owned ≠ _)
  | @denied p index slot hlink hslot =>
    have hcount := namedSlots_write slot.abort (getDownloadIndexById_get hslot)
    change namedSlots (d.write index slot.abort) ≤ receivingEntries d
    have habort : slot.abort.downloadChunk.isSome = false := rfl
    rw [habort] at hcount
    simp only [Bool.false_eq_true, if_false] at hcount
    omega
  | @crashed i index idle slot hash request hidle hactive hhash hslot hrequest hlink =>
    have hget := getDownloadIndexById_get hslot
    have hslots := namedSlots_abort hget
      (hnamed index slot hget (getDownloadIndexById_id hslot ▸ hactive))
    have hentries := receivingEntries_resetChunk hash (d.write index slot.abort)
    have hsame : namedSlots (resetChunk hash (d.write index slot.abort)) =
        namedSlots (d.write index slot.abort) := by
      rw [namedSlots, resetChunk_slots, namedSlots]
    have hreq : receivingEntries (d.write index slot.abort) = receivingEntries d := rfl
    omega
  | finished hall =>
    have hnone : receivingEntries d = 0 := by
      unfold allChunkFinished at hall
      split at hall
      · cases hall
      · rename_i request hrequest
        rw [receivingEntries_some hrequest]
        refine List.countP_eq_zero.mpr fun c hmem hc => ?_
        have howned := List.all_eq_true.mp hall c hmem
        rw [decide_eq_true_eq] at howned
        rw [Chunk.receiving, howned] at hc
        exact absurd hc (by decide)
    change namedSlots d ≤ 0
    omega

/-! ## Runs -/

/-- What holds in every run: of the entries, the slots, and between them. -/
structure DownloadInv (d : Downloads) (log : DownloadLog) : Prop where
  buffered : Entries (Buffered log) d
  named : SlotsNamed d
  count : namedSlots d ≤ receivingEntries d

theorem downloadInv_init (max : Nat) (has : List Chunk) (files : String → Memory) :
    DownloadInv (initDownloads max has files) [] := by
  have hfree : ∀ slot ∈ (initDownloads max has files).slots, slot = ⟨idNull, none, [], 0⟩ :=
    fun slot hmem => (List.mem_replicate.mp hmem).2
  refine ⟨Entries.none rfl, fun i slot hi hne => ?_, Nat.le_of_eq ?_⟩
  · exact absurd (congrArg DownloadSlot.downloadId (hfree slot (List.mem_of_getElem? hi))) hne
  · refine List.countP_eq_zero.mpr fun slot hmem hnamed => ?_
    rw [hfree slot hmem] at hnamed
    cases hnamed

theorem downloadInv_move (h : DownloadInv d log) (hm : Move env valid linked d l d') :
    DownloadInv d' (log ++ l) :=
  ⟨buffered_move h.buffered hm, slotsNamed_move h.named hm,
    named_le_receiving_move h.count h.buffered h.named hm⟩

theorem downloadInv_userGet {outf : String} {parsed : Option (List (Int × Hash))}
    (h : DownloadInv d log) (hs : userGet env outf parsed d = .ok (d', l)) :
    DownloadInv d' (log ++ l) := by
  rcases userGet_cases hs with ⟨rfl, rfl⟩ | ⟨lines, sent, hnone, -, -, rfl, rfl⟩
  · rw [List.append_nil]
    exact ⟨h.buffered.congr rfl, h.named, h.count⟩
  · refine ⟨.requested rfl fun entry line _ => ?_, h.named, ?_⟩
    · have hreset : Buffered (log ++ l) entry ((requestEntry line).reset .notStarted) :=
        .reset (by decide)
      exact hreset
    · have hcount := h.count
      rw [receivingEntries_none hnone] at hcount
      exact Nat.le_trans hcount (Nat.zero_le _)

theorem downloadInv_reach {max : Nat} {has : List Chunk} {files : String → Memory}
    {Ok : Downloads → DownloadLog → DownloadEvent → Prop}
    (h : (downloadMachine env).Reach (· = initDownloads max has files) Ok d log) :
    DownloadInv d log := by
  refine run_invariant False False (fun d hd => ?_)
    (fun _ _ _ _ hv => hv.elim) (fun _ _ _ _ _ hl => hl.elim)
    (fun d log l d' hI hm => downloadInv_move hI hm)
    (fun d log outf parsed l d' hI _ hs => downloadInv_userGet hI hs) h
  subst hd
  exact downloadInv_init max has files

theorem DownloadInv.hasRequest (h : DownloadInv d log) (hget : d.slots[index]? = some slot)
    (hnamed : slot.downloadChunk ≠ none) : ∃ request, d.currentRequest = some request := by
  refine Option.ne_none_iff_exists'.mp fun hnone => ?_
  have hle := h.count
  rw [receivingEntries_none hnone] at hle
  have hpos : 0 < namedSlots d := List.countP_pos_iff.mpr
    ⟨slot, List.mem_of_getElem? hget, Option.isSome_iff_ne_none.mpr hnamed⟩
  omega

/-! ## Saves stay inside the buffer -/

/-- The tracker answers a packet with its own number: it is the expected one. -/
def Expected (d : Downloads) (p : Int) (packet : Incoming) : Prop :=
  (trackDataPacket p packet.seqNumber packet.dataLength 0 d).1 = packet.seqNumber

theorem trackDataPacket_fst (p : Int) (seq length : Nat) (now now' : Time) (d : Downloads) :
    (trackDataPacket p seq length now d).1 = (trackDataPacket p seq length now' d).1 := by
  cases h : getDownloadIndexById p d with
  | none => rw [trackDataPacket_none h, trackDataPacket_none h]
  | some r => rw [trackDataPacket_eq h, trackDataPacket_eq h]

/-- The entry is OWNED, or there is nothing to copy, or the entry was picked and the payloads saved
to it since then and this one make at most a chunk. -/
def Fits (log : DownloadLog) (entry : Nat) (chunk : Chunk) (packet : Incoming) : Prop :=
  chunk.state = .owned ∨ packet.payloadSize = 0 ∨
    (chunk.state = .receiving ∧ savedBytes entry log + packet.payloadSize ≤ btChunkSize)

theorem Buffered.save_iff (h : Buffered log entry chunk) (packet : Incoming) :
    (∃ chunk', saveDataPacket packet chunk = .ok chunk') ↔ Fits log entry chunk packet := by
  by_cases howned : chunk.state = .owned
  · rw [saveDataPacket, if_pos howned]
    exact ⟨fun _ => Or.inl howned, fun _ => ⟨chunk, rfl⟩⟩
  · rw [saveDataPacket_eq packet howned]
    by_cases hsize : packet.payloadSize = 0
    · rw [if_pos hsize]
      exact ⟨fun _ => Or.inr (Or.inl hsize), fun _ => ⟨_, rfl⟩⟩
    · rw [if_neg hsize]
      simp only [Fits, howned, hsize, false_or]
      by_cases hreceiving : chunk.state = .receiving
      · obtain ⟨buf, hbuf⟩ : ∃ buf, chunk.buffer = some buf := by
          rw [Chunk.buffer]
          split_ifs with hnone
          · exact ⟨_, rfl⟩
          · refine Option.isSome_iff_exists.mp ?_
            simpa [hreceiving, Option.isSome_iff_ne_none] using hnone
        rw [hbuf, ← h.saved hreceiving]
        by_cases hfits : chunk.receivedByteNumber + packet.payloadSize ≤ btChunkSize
        · simp [hfits, hreceiving]
        · simp [hfits]
      · have hnone : chunk.buffer = none := by
          rw [Chunk.buffer, if_neg (fun hand => hreceiving hand.2)]
          exact h.idle hreceiving
        simp [hnone, hreceiving]

theorem Buffered.saveChunk (h : Buffered log entry chunk) (env : Env)
    (hrequest : d.currentRequest = some request) (hget : request.chunks[entry]? = some chunk) :
    ∃ r, saveChunk env entry d = .ok r := by
  unfold Bittorrent.saveChunk
  simp only [hrequest, hget]
  split_ifs with hfull
  · obtain ⟨data, hdata⟩ := Option.ne_none_iff_exists'.mp fun hnone => by
      have hzero := h.empty hnone
      rw [hfull.1] at hzero
      exact absurd hzero (by decide)
    simp only [hdata]
    split_ifs
    · exact ⟨_, rfl⟩
    · exact ⟨_, rfl⟩
  · exact ⟨_, rfl⟩

theorem acceptData_iff (env : Env) (src : Addr) (index : Nat) (p : Int) (clk : Clock)
    (packet : Incoming) (h : Buffered log entry chunk)
    (hrequest : d.currentRequest = some request) (hget : request.chunks[entry]? = some chunk) :
    (∃ r, acceptData env src index p packet entry chunk clk d = .ok r) ↔
      Fits log entry chunk packet := by
  rw [← h.save_iff packet]
  unfold acceptData
  cases hsave : saveDataPacket packet chunk with
  | error f => simp
  | ok chunk' =>
    have hb := h.save (l := [.accepted index p packet.seqNumber entry packet.payloadSize]) hsave
      (savedBytes_accepted entry log index p packet.seqNumber packet.payloadSize fun _ => rfl)
    obtain ⟨r, hr⟩ := hb.saveChunk env (writeChunk_currentRequest hrequest entry chunk')
      (Table.get_set_self (List.getElem?_eq_some_iff.mp hget).1)
    simp only [hr]
    cases r with
    | none => exact ⟨fun _ => ⟨_, rfl⟩, fun _ => ⟨_, rfl⟩⟩
    | some r => exact ⟨fun _ => ⟨_, rfl⟩, fun _ => ⟨_, rfl⟩⟩

/-- What a DATA packet of a peer must meet: it is not the expected one, or its payload fits the
entry that the peer's stream leads to. -/
def SaveFits (log : DownloadLog) (d : Downloads) (p : Int) (packet : Incoming) : Prop :=
  ∀ index slot hash request entry chunk, Target d p index slot hash request entry chunk →
    Expected d p packet → Fits log entry chunk packet

/-- The DATA case of a peer with an active download returns exactly when the payload it saves fits:
otherwise it copies to a NULL pointer or past the end of the buffer. -/
theorem inboundData_returns_iff {max : Nat} {has : List Chunk} {files : String → Memory}
    {Ok : Downloads → DownloadLog → DownloadEvent → Prop}
    (h : (downloadMachine env).Reach (· = initDownloads max has files) Ok d log)
    (hp : p ≠ idNull) (hfound : getDownloadIndexById p d = some (index, slot)) (src : Addr)
    (packet : Incoming) (clk : Clock) :
    (∃ r, inboundData env src p packet clk d = .ok r) ↔ SaveFits log d p packet := by
  have hinv := downloadInv_reach h
  have hget := getDownloadIndexById_get hfound
  have hactive : slot.downloadId ≠ idNull := by rwa [getDownloadIndexById_id hfound]
  obtain ⟨hash, hnamed⟩ := Option.ne_none_iff_exists'.mp (hinv.named index slot hget hactive)
  obtain ⟨request, hrequest⟩ := hinv.hasRequest hget (hnamed ▸ Option.some_ne_none hash)
  by_cases htarget : ∃ entry chunk, Target d p index slot hash request entry chunk
  · obtain ⟨entry, chunk, htarget⟩ := htarget
    have hb := hinv.buffered request entry chunk hrequest htarget.get
    obtain ⟨slot', htarget'⟩ := htarget.track packet.seqNumber packet.dataLength (clk 0)
    have haccept := acceptData_iff env src index p clk packet hb htarget'.current htarget'.get
    have hfits : SaveFits log d p packet ↔ (Expected d p packet → Fits log entry chunk packet) := by
      refine ⟨fun hall => hall _ _ _ _ _ _ htarget, fun hone i s hash' request' e c htarget₂ => ?_⟩
      obtain ⟨-, -, -, -, rfl, rfl⟩ := htarget.unique htarget₂
      exact hone
    rw [inboundData_eq htarget, hfits, Expected,
      trackDataPacket_fst p packet.seqNumber packet.dataLength 0 (clk 0) d, ← haccept]
    simp only
    by_cases heq : packet.seqNumber =
        (trackDataPacket p packet.seqNumber packet.dataLength (clk 0) d).1
    · simp only [heq.symm, true_imp_iff]
      cases acceptData env src index p packet entry chunk clk
        (trackDataPacket p packet.seqNumber packet.dataLength (clk 0) d).2 with
      | error f => simp
      | ok r => exact ⟨fun _ => ⟨_, rfl⟩, fun _ => ⟨_, rfl⟩⟩
    · rw [if_neg heq]
      exact ⟨fun _ he => absurd he.symm heq, fun _ => ⟨_, rfl⟩⟩
  · have hno : ∀ entry chunk, ¬ Target d p index slot hash request entry chunk :=
      fun entry chunk ht => htarget ⟨entry, chunk, ht⟩
    rw [inboundData_skip hfound hnamed hrequest hno]
    refine ⟨fun _ i s hash' request' e c ht => absurd ht ?_, fun _ => ⟨_, rfl⟩⟩
    have hsame := ht.found.symm.trans hfound
    cases hsame
    have hsame := ht.named.symm.trans hnamed
    cases hsame
    have hsame := ht.current.symm.trans hrequest
    cases hsame
    exact hno e c

/-- With the ids of two lines swapped the first payload goes to an entry without a buffer; and 354
full packets overflow the buffer of the entry they are for. -/
theorem data_saves_fault :
    (downloadMachine sampleEnv).run [.userGet "out" (some [(1, sampleHash 0), (0, sampleHash 1)]),
      .ihave sampleSrc 1 (samplePacket (.ihave [sampleHash 0])) fun _ => 0,
      .data sampleSrc 1 (samplePacket (.data 1 [7])) fun _ => 0]
        (initDownloads 1 [] fun _ _ => 0) = .error .nullDeref ∧
    faultOf ((downloadMachine sampleEnv).run ([.userGet "out" (some [(0, sampleHash 0)]),
      .ihave sampleSrc 1 (samplePacket (.ihave [sampleHash 0])) fun _ => 0] ++
        (List.range 354).map fun k =>
          .data sampleSrc 1 (samplePacket (.data (k + 1) (List.replicate 1484 7))) fun _ => 0)
            (initDownloads 1 [] fun _ _ => 0)) = some .overflow := by
  constructor
  · rfl
  · decide +kernel

end Bittorrent
