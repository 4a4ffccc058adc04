import Bittorrent.Download.Picked
import Bittorrent.Download.Slots
import Bittorrent.Download.Streams

/-!
# Room for the next packet

The packets of a chunk are 1484 bytes apart, and what a stream has saved ends at the place of its next
packet at the latest (`Roomy`): a packet is saved when the tracker answers with its number, and then it is
either the next one, which adds at most 1484 bytes, or repeats the newest one. So as long as no payload
repeats the newest packet, and that of the next one does not go past the end of the chunk from its own place
(`Placed`), every copy stays inside the buffer (`data_saved_in_bounds`). Packets with other numbers are not
saved, whatever they are.

The invariant is about the slots that have the hash of a chunk, active or not: no two have the same hash,
and an entry with the hash is RECEIVING. A slot gets its hash with an entry that was not started, which no
other slot can have; an entry is given up when the slot with its hash is freed, by the packet that completes
it, for which the entry found by its id must be the one with the hash, or by a timeout, which must free the
slot that timed out. A DENIED, or a pick without a free slot, leaves an entry that no packet reaches.
-/

namespace Bittorrent

variable {env : Env} {d d' : Downloads} {log l : DownloadLog} {p : Int} {index entry seq length : Nat}
  {slot slot' : DownloadSlot} {hash : Hash} {request : Request} {chunk chunk' : Chunk}
  {packet : Incoming} {clk : Clock} {records : List PacketRecord}

/-! ## Numbers -/

/-- The number of the newest packet acknowledged. -/
def newest : List PacketRecord → Nat
  | [] => 0
  | root :: _ => root.seq

/-- The packet is the next one of its stream; without a record any packet is. -/
def Follows (records : List PacketRecord) (seq : Nat) : Prop :=
  ∀ root ∈ records, wrap32 (root.seq + 1) = seq

/-- At most one record, with a number of a chunk. -/
def Numbered (records : List PacketRecord) : Prop :=
  records = [] ∨ ∃ root, records = [root] ∧ root.seq ≤ maxPacketPerChunk

theorem Numbered.track (h : Numbered records) (hseq : Follows records seq → seq ≤ maxPacketPerChunk)
    (length : Nat) : Numbered (advanceRecords seq length records) ∧
      newest records ≤ newest (advanceRecords seq length records) := by
  rcases h with rfl | ⟨root, rfl, hroot⟩
  · exact ⟨Or.inr ⟨⟨seq, length⟩, rfl, hseq fun _ hmem => absurd hmem List.not_mem_nil⟩, Nat.zero_le _⟩
  · obtain ⟨record, hrecord, hnumber⟩ := advanceRecords_one (rfl : [root] = [root]) seq length
    have hwrap : wrap32 (root.seq + 1) = root.seq + 1 :=
      Nat.mod_eq_of_lt (lt_of_le_of_lt (Nat.succ_le_succ hroot) (by decide))
    rw [advance, hwrap] at hnumber
    rw [hrecord]
    refine ⟨Or.inr ⟨record, rfl, ?_⟩, ?_⟩
    · rw [hnumber]
      split_ifs with hnext
      · exact hseq fun r hmem => by rw [List.mem_singleton.mp hmem, hwrap, hnext]
      · exact hroot
    · rw [newest, newest, hnumber]
      split_ifs <;> omega

theorem Numbered.accepts (h : Numbered records) (hpos : Follows records seq → 1 ≤ seq)
    (heq : seq = ((advanceRecords seq length records).headD ⟨seq, length⟩).seq) :
    newest (advanceRecords seq length records) = seq ∧
      ((∃ root ∈ records, root.seq = seq) ∨ Follows records seq ∧ newest records < seq) := by
  rcases h with rfl | ⟨root, rfl, hroot⟩
  · have hfirst : Follows [] seq := fun _ hmem => absurd hmem List.not_mem_nil
    exact ⟨rfl, Or.inr ⟨hfirst, hpos hfirst⟩⟩
  · obtain ⟨record, hrecord, hnumber⟩ := advanceRecords_one (rfl : [root] = [root]) seq length
    rw [hrecord, List.headD_cons] at heq
    rw [hrecord]
    refine ⟨heq.symm, ?_⟩
    rw [heq, hnumber, advance]
    split_ifs with hnext
    · right
      have hwrap : wrap32 (root.seq + 1) = root.seq + 1 :=
        Nat.mod_eq_of_lt (lt_of_le_of_lt (Nat.succ_le_succ hroot) (by decide))
      refine ⟨fun r hmem => by rw [List.mem_singleton.mp hmem, hnext], ?_⟩
      rw [← hnext, hwrap]
      exact Nat.lt_succ_self _
    · exact Or.inl ⟨root, List.mem_singleton_self root, rfl⟩

/-! ## The invariant -/

structure Roomy (d : Downloads) : Prop where
  numbered : Slots (fun slot => Numbered slot.lastAckedRecord) d
  unique : ∀ (i j : Nat) (a b : DownloadSlot), d.slots[i]? = some a → d.slots[j]? = some b →
    a.downloadChunk ≠ none → a.downloadChunk = b.downloadChunk → i = j
  entry : ∀ slot ∈ d.slots, Entries (fun _ chunk => slot.downloadChunk = some chunk.hash →
    chunk.state = .receiving ∧ chunk.receivedByteNumber ≤ maxPayloadSize * newest slot.lastAckedRecord) d
  fresh : Entries (fun _ chunk => chunk.state = .notStarted → chunk.receivedByteNumber = 0) d

theorem Roomy.congr (h : Roomy d) (hslots : d'.slots = d.slots)
    (hrequest : d'.currentRequest = d.currentRequest) : Roomy d' where
  numbered := h.numbered.congr hslots
  unique := hslots ▸ h.unique
  entry slot hmem := (h.entry slot (hslots ▸ hmem)).congr hrequest
  fresh := h.fresh.congr hrequest

theorem Roomy.write (h : Roomy d) (hi : d.slots[index]? = some slot) (hnumbered : Numbered slot'.lastAckedRecord)
    (hslot : slot'.downloadChunk ≠ none → slot'.downloadChunk = slot.downloadChunk ∧
      newest slot.lastAckedRecord ≤ newest slot'.lastAckedRecord) : Roomy (d.write index slot') := by
  have hlt := (List.getElem?_eq_some_iff.mp hi).1
  refine ⟨h.numbered.write hi hnumbered, fun i j a b ha hb hne hsame => ?_, fun s hmem => ?_, h.fresh⟩
  · rcases Table.get_set_cases hlt ha with ⟨rfl, rfl⟩ | ⟨-, ha'⟩
    · rcases Table.get_set_cases hlt hb with ⟨rfl, -⟩ | ⟨-, hb⟩
      · rfl
      · have hhash := (hslot hne).1
        exact h.unique _ _ _ _ hi hb (hhash ▸ hne) (hhash ▸ hsame)
    · rcases Table.get_set_cases hlt hb with ⟨rfl, rfl⟩ | ⟨-, hb⟩
      · have hhash := (hslot (hsame ▸ hne)).1
        exact h.unique _ _ _ _ ha' hi hne (hsame.trans hhash)
      · exact h.unique _ _ _ _ ha' hb hne hsame
  · rcases List.mem_or_eq_of_mem_set hmem with hmem | rfl
    · exact h.entry s hmem
    · intro request e c hcurrent hget hnamed
      obtain ⟨hhash, hle⟩ := hslot (hnamed ▸ Option.some_ne_none _)
      obtain ⟨hstate, hbytes⟩ := h.entry slot (List.mem_of_getElem? hi) request e c hcurrent hget
        (hhash ▸ hnamed)
      exact ⟨hstate, Nat.le_trans hbytes (Nat.mul_le_mul_left _ hle)⟩

theorem Roomy.track (h : Roomy d) (hseq : ∀ index slot, getDownloadIndexById p d = some (index, slot) →
      Follows slot.lastAckedRecord seq → seq ≤ maxPacketPerChunk) (length : Nat) (now : Time) :
    Roomy (trackDataPacket p seq length now d).2 := by
  cases hfound : getDownloadIndexById p d with
  | none => rwa [trackDataPacket_none hfound]
  | some r =>
    obtain ⟨index, slot⟩ := r
    have hget := getDownloadIndexById_get hfound
    obtain ⟨hnumbered, hle⟩ := (h.numbered index slot hget).track (hseq index slot hfound) length
    rw [trackDataPacket_eq hfound]
    exact h.write hget hnumbered fun _ => ⟨rfl, hle⟩

theorem Roomy.abort (h : Roomy d) (p : Int) : Roomy (abortDownload p d) := by
  cases hfound : getDownloadIndexById p d with
  | none => rwa [abortDownload_none hfound]
  | some r =>
    rw [abortDownload_eq hfound]
    exact h.write (getDownloadIndexById_get hfound) (Or.inl rfl) fun hne => absurd rfl hne

theorem Roomy.writeChunk (h : Roomy d) (hcurrent : d.currentRequest = some request)
    (hget : request.chunks[entry]? = some chunk) (hhash : chunk'.hash = chunk.hash)
    (hfresh : chunk'.state = .notStarted → chunk'.receivedByteNumber = 0)
    (hslots : ∀ slot ∈ d.slots, slot.downloadChunk = some chunk.hash →
      chunk'.state = .receiving ∧ chunk'.receivedByteNumber ≤ maxPayloadSize * newest slot.lastAckedRecord) :
    Roomy (d.writeChunk entry chunk') where
  numbered := h.numbered
  unique := h.unique
  entry slot hmem := (h.entry slot hmem).writeChunk hcurrent hget (fun _ _ _ hc => hc)
    fun hnamed => hslots slot hmem (hhash ▸ hnamed)
  fresh := h.fresh.writeChunk hcurrent hget (fun _ _ _ hc => hc) hfresh

/-! ## Streams that start and end -/

theorem Roomy.fill (h : Roomy d) (hi : d.slots[index]? = some slot)
    (hnew : ∀ s ∈ d.slots, s.downloadChunk ≠ some hash)
    (hentries : Entries (fun _ chunk => chunk.hash = hash →
      chunk.state = .receiving ∧ chunk.receivedByteNumber = 0) d) (now : Time) :
    Roomy (d.write index (slot.opened p hash now)) := by
  have hlt := (List.getElem?_eq_some_iff.mp hi).1
  have hnamed : (slot.opened p hash now).downloadChunk = some hash := rfl
  refine ⟨h.numbered.write hi (h.numbered index slot hi), fun i j a b ha hb hne hsame => ?_, fun s hmem => ?_,
    h.fresh⟩
  · rcases Table.get_set_cases hlt ha with ⟨rfl, rfl⟩ | ⟨-, ha'⟩
    · rcases Table.get_set_cases hlt hb with ⟨rfl, -⟩ | ⟨-, hb⟩
      · rfl
      · exact absurd (hsame.symm.trans hnamed) (hnew b (List.mem_of_getElem? hb))
    · rcases Table.get_set_cases hlt hb with ⟨rfl, rfl⟩ | ⟨-, hb⟩
      · exact absurd (hsame.trans hnamed) (hnew a (List.mem_of_getElem? ha'))
      · exact h.unique _ _ _ _ ha' hb hne hsame
  · rcases List.mem_or_eq_of_mem_set hmem with hmem | rfl
    · exact h.entry s hmem
    · intro request e c hcurrent hget hc
      obtain ⟨hstate, hzero⟩ := hentries request e c hcurrent hget
        (Option.some.inj (hnamed.symm.trans hc)).symm
      exact ⟨hstate, by rw [hzero]; exact Nat.zero_le _⟩

theorem Unfinished.only {S : Downloads} (h : Unfinished d request entry chunk)
    (hlines : ∀ lines, d.lines = some lines → HashesDistinct lines)
    (hcurrent : S.currentRequest = some { request with chunks := request.chunks.set entry chunk' }) :
    Entries (fun _ c => c.hash = chunk.hash → c = chunk') S := by
  intro request' e c hreq hc hhash
  rw [hcurrent] at hreq
  cases hreq
  rcases Table.get_set_cases (List.getElem?_eq_some_iff.mp h.get).1 hc with ⟨-, rfl⟩ | ⟨hne, hc⟩
  · rfl
  · refine absurd (hlines (request.chunks.map Chunk.line) ?_ e entry c.line chunk.line ?_ ?_ hhash) hne
    · rw [Downloads.lines, h.current]
      rfl
    · rw [List.getElem?_map, hc]
      rfl
    · rw [List.getElem?_map, h.get]
      rfl

theorem Roomy.started (h : Roomy d) (hlines : ∀ lines, d.lines = some lines → HashesDistinct lines)
    (hentry : Unfinished d request entry chunk) (clk : Clock) : Roomy (d.started p entry chunk clk) := by
  have hnew : ∀ s ∈ d.slots, s.downloadChunk ≠ some chunk.hash := by
    intro s hmem hnamed
    have hstate := (h.entry s hmem request entry chunk hentry.current hentry.get hnamed).1
    rw [hentry.state] at hstate
    cases hstate
  have hzero := h.fresh request entry chunk hentry.current hentry.get hentry.state
  have hpicked : Roomy (d.writeChunk entry { chunk with state := .receiving }) :=
    h.writeChunk hentry.current hentry.get rfl (fun hs => by cases hs)
      fun s hmem hnamed => absurd hnamed (hnew s hmem)
  have hslots : (Bittorrent.markPeerState p .working
      (d.writeChunk entry { chunk with state := .receiving })).slots = d.slots := markPeerState_slots
  have hcurrent : (Bittorrent.markPeerState p .working
      (d.writeChunk entry { chunk with state := .receiving })).currentRequest =
        some { request with chunks := request.chunks.set entry { chunk with state := .receiving } } := by
    obtain ⟨connections, heq, -⟩ :=
      markPeerState_eq p .working (d.writeChunk entry { chunk with state := .receiving })
    rw [heq]
    exact writeChunk_currentRequest hentry.current entry _
  have hmarked := hpicked.congr hslots
    (hcurrent.trans (writeChunk_currentRequest hentry.current entry _).symm)
  have hentries : Entries (fun _ c => c.hash = chunk.hash → c.state = .receiving ∧ c.receivedByteNumber = 0)
      (Bittorrent.markPeerState p .working (d.writeChunk entry { chunk with state := .receiving })) := by
    intro request' e c hreq hc hhash
    obtain rfl := hentry.only hlines hcurrent request' e c hreq hc hhash
    exact ⟨rfl, hzero⟩
  rw [Downloads.started]
  cases hfree : getDownloadIndexById idNull (Bittorrent.markPeerState p .working
      (d.writeChunk entry { chunk with state := .receiving })) with
  | none => rwa [opened_none (streams_zero.mpr hfree)]
  | some r =>
    rw [opened_some hfree]
    refine Roomy.track ?_ (fun _ _ _ _ => Nat.zero_le _) 1 (clk 2)
    exact hmarked.fill (getDownloadIndexById_get hfree) (fun s hmem => hnew s (hslots ▸ hmem)) hentries (clk 1)

theorem Roomy.assigned {picked : Option (Nat × Chunk)} (h : Roomy d)
    (hlines : ∀ lines, d.lines = some lines → HashesDistinct lines)
    (hentry : ∀ entry chunk, picked = some (entry, chunk) → ∃ request, Unfinished d request entry chunk)
    (p : Int) (clk : Clock) : Roomy (d.assigned p picked clk) := by
  unfold Downloads.assigned
  split
  · obtain ⟨connections, heq, -⟩ := markPeerState_eq p .notWorking d
    rw [heq]
    exact h.congr rfl rfl
  · rename_i entry chunk
    obtain ⟨request, hentry⟩ := hentry entry chunk rfl
    exact h.started hlines hentry clk

theorem Roomy.close {S : Downloads} (h : Roomy d) (hi : d.slots[index]? = some slot)
    (hnamed : slot.downloadChunk = some chunk.hash) (hcurrent : d.currentRequest = some request)
    (hget : request.chunks[entry]? = some chunk) (hslots : S.slots = d.slots)
    (hS : S.currentRequest = some { request with chunks := request.chunks.set entry chunk' })
    (hhash : chunk'.hash = chunk.hash) (hfresh : chunk'.state = .notStarted → chunk'.receivedByteNumber = 0) :
    Roomy (S.write index slot.abort) := by
  have hfreed : Roomy (d.write index slot.abort) := h.write hi (Or.inl rfl) fun hne => absurd rfl hne
  have hgiven : Roomy ((d.write index slot.abort).writeChunk entry chunk') := by
    refine hfreed.writeChunk hcurrent hget hhash hfresh fun s hmem hs => ?_
    -- it was the only slot with the hash
    obtain ⟨j, hj⟩ := List.mem_iff_getElem?.mp hmem
    rcases Table.get_set_cases (List.getElem?_eq_some_iff.mp hi).1 hj with ⟨-, rfl⟩ | ⟨hne, hj⟩
    · cases hs
    · exact absurd (h.unique j index s slot hj hi (hs ▸ Option.some_ne_none _) (hs.trans hnamed.symm)) hne
  refine hgiven.congr ?_ ?_
  · simp only [Downloads.write, Downloads.writeChunk, hslots]
  · exact hS.trans (writeChunk_currentRequest (d := d.write index slot.abort) hcurrent entry chunk').symm

/-! ## A packet of a stream -/

/-- The next packet has a payload that ends inside the chunk from the packet's own place, and no payload is
that of the newest packet again. -/
structure Placed (slot : DownloadSlot) (packet : Incoming) : Prop where
  pos : Follows slot.lastAckedRecord packet.seqNumber → 1 ≤ packet.seqNumber
  fits : Follows slot.lastAckedRecord packet.seqNumber →
    maxPayloadSize * (packet.seqNumber - 1) + packet.payloadSize ≤ btChunkSize
  new : packet.payloadSize ≠ 0 → ∀ root ∈ slot.lastAckedRecord, root.seq ≠ packet.seqNumber

theorem Placed.le (h : Placed slot packet) (hnext : Follows slot.lastAckedRecord packet.seqNumber) :
    packet.seqNumber ≤ maxPacketPerChunk := by
  have hfits := h.fits hnext
  rw [maxPayloadSize, btChunkSize] at hfits
  rw [maxPacketPerChunk]
  omega

theorem Target.hash_eq (h : Target d p index slot hash request entry chunk)
    (hids : ∀ lines, d.lines = some lines → IdsArePositions lines) : chunk.hash = hash := by
  have hid := h.id
  rw [getChunkId] at hid
  split at hid
  · omega
  · rename_i j c hfound
    have hget := Table.lookup_get hfound
    have hhash : c.hash = hash := Table.lookup_key hfound
    have hlines : d.lines = some (request.chunks.map Chunk.line) := by
      rw [Downloads.lines, h.current]
      rfl
    have hline : (request.chunks.map Chunk.line)[j]? = some c.line := by
      rw [List.getElem?_map, hget]
      rfl
    have hentry : entry = j := by
      refine hids _ hlines j c.line hline entry ?_ ?_
      · rw [← getChunkId_eq, Chunk.line, hhash]
        exact h.id
      · rw [List.length_map]
        exact (List.getElem?_eq_some_iff.mp h.get).1
    subst hentry
    have hsame := hget.symm.trans h.get
    cases hsame
    exact hhash

theorem Roomy.accepts (h : Roomy d) (htarget : Target d p index slot hash request entry chunk)
    (hhash : chunk.hash = hash) (hplaced : Placed slot packet) {now : Time}
    (heq : packet.seqNumber = (trackDataPacket p packet.seqNumber packet.dataLength now d).1) :
    chunk.state = .receiving ∧
      newest (advanceRecords packet.seqNumber packet.dataLength slot.lastAckedRecord) = packet.seqNumber ∧
      chunk.receivedByteNumber ≤ maxPayloadSize * packet.seqNumber ∧
      (packet.payloadSize = 0 ∨ Follows slot.lastAckedRecord packet.seqNumber ∧
        chunk.receivedByteNumber ≤ maxPayloadSize * (packet.seqNumber - 1)) := by
  have hget := getDownloadIndexById_get htarget.found
  have hnumbered := h.numbered index slot hget
  obtain ⟨hstate, hbytes⟩ := h.entry slot (List.mem_of_getElem? hget) request entry chunk htarget.current
    htarget.get (by rw [htarget.named, hhash])
  rw [trackDataPacket_eq htarget.found] at heq
  obtain ⟨hnewest, hcases⟩ := hnumbered.accepts hplaced.pos heq
  have hle := (hnumbered.track hplaced.le packet.dataLength).2
  rw [hnewest] at hle
  refine ⟨hstate, hnewest, Nat.le_trans hbytes (Nat.mul_le_mul_left _ hle), ?_⟩
  rcases hcases with ⟨root, hroot, hseq⟩ | ⟨hnext, hlt⟩
  · left
    by_contra hsize
    exact hplaced.new hsize root hroot hseq
  · exact Or.inr ⟨hnext, Nat.le_trans hbytes (Nat.mul_le_mul_left _ (Nat.le_sub_one_of_lt hlt))⟩

theorem payloadSize_le (packet : Incoming) : packet.payloadSize ≤ maxPayloadSize := Nat.min_le_right _ _

theorem Roomy.save (h : Roomy d) (htarget : Target d p index slot hash request entry chunk)
    (hhash : chunk.hash = hash) (hplaced : Placed slot packet) {now : Time}
    (heq : packet.seqNumber = (trackDataPacket p packet.seqNumber packet.dataLength now d).1) :
    chunk.receivedByteNumber + packet.payloadSize ≤ maxPayloadSize * packet.seqNumber := by
  obtain ⟨-, -, hle, hcases⟩ := h.accepts htarget hhash hplaced heq
  rcases hcases with hsize | ⟨hnext, hbytes⟩
  · rw [hsize]
    exact hle
  · calc chunk.receivedByteNumber + packet.payloadSize
        ≤ maxPayloadSize * (packet.seqNumber - 1) + maxPayloadSize :=
          Nat.add_le_add hbytes (payloadSize_le packet)
      _ = maxPayloadSize * packet.seqNumber := by
          rw [← Nat.mul_succ, Nat.succ_eq_add_one, Nat.sub_add_cancel (hplaced.pos hnext)]

theorem Roomy.saved (h : Roomy d) (htarget : Target d p index slot hash request entry chunk)
    (hhash : chunk.hash = hash) (hstate : chunk.state = .receiving)
    (hroom : chunk.receivedByteNumber + packet.payloadSize ≤ maxPayloadSize * newest slot.lastAckedRecord)
    (hsave : saveDataPacket packet chunk = .ok chunk') : Roomy (d.writeChunk entry chunk') := by
  obtain ⟨-, hhash', hstate', hadd⟩ := saveDataPacket_ok hsave
  have hreceived := hadd (by rw [hstate]; decide)
  have hget := getDownloadIndexById_get htarget.found
  refine h.writeChunk htarget.current htarget.get hhash' (fun hs => ?_) fun s hmem hnamed => ?_
  · rw [hstate', hstate] at hs
    cases hs
  · -- only the stream's own slot has the hash
    obtain ⟨i, hi⟩ := List.mem_iff_getElem?.mp hmem
    have hindex : i = index := by
      refine h.unique i index s slot hi hget (hnamed ▸ Option.some_ne_none _) ?_
      rw [hnamed, htarget.named, hhash]
    subst hindex
    cases hi.symm.trans hget
    exact ⟨hstate'.trans hstate, hreceived ▸ hroom⟩

theorem Roomy.filled {S : Downloads} {saved : DownloadLog} (h : Roomy d)
    (htarget : Target d p index slot hash request entry chunk) (hhash : chunk.hash = hash)
    (hsave : saveDataPacket packet chunk = .ok chunk')
    (hchunk : saveChunk env entry (d.writeChunk entry chunk') = .ok (some (S, saved))) :
    Roomy (S.write index slot.abort) ∧ (S.write index slot.abort).lines = d.lines := by
  have hcurrent := writeChunk_currentRequest htarget.current entry chunk'
  have hself : ({ request with chunks := request.chunks.set entry chunk' } : Request).chunks[entry]?
      = some chunk' := Table.get_set_self (List.getElem?_eq_some_iff.mp htarget.get).1
  obtain ⟨-, state, -, -, -, -, hgiven⟩ := saveChunk_given hcurrent hself hchunk
  simp only [List.set_set] at hgiven
  have hhash' : chunk'.hash = chunk.hash := (saveDataPacket_ok hsave).2.1
  refine ⟨h.close (getDownloadIndexById_get htarget.found) (by rw [htarget.named, hhash]) htarget.current
    htarget.get (saveChunk_frame hchunk).1 hgiven hhash' fun _ => rfl, ?_⟩
  have hline : (chunk'.reset state).line = chunk.line :=
    show chunk'.line = chunk.line from saveDataPacket_line hsave
  rw [← lines_writeChunk htarget.current htarget.get hline, Downloads.lines, Downloads.lines,
    writeChunk_currentRequest htarget.current]
  exact congrArg (Option.map _) hgiven

/-- The expected packet leaves room for the next one, and the packet that fills the chunk ends its
stream. -/
theorem Roomy.acceptData {src : Addr} (h : Roomy d) (htarget : Target d p index slot hash request entry chunk)
    (hdistinct : ∀ lines, d.lines = some lines → HashesDistinct lines) (hhash : chunk.hash = hash)
    (hstate : chunk.state = .receiving)
    (hroom : chunk.receivedByteNumber + packet.payloadSize ≤ maxPayloadSize * newest slot.lastAckedRecord)
    (haccept : acceptData env src index p packet entry chunk clk d = .ok (d', l)) : Roomy d' := by
  unfold Bittorrent.acceptData at haccept
  split at haccept
  · cases haccept
  · rename_i chunk' hsave
    simp only at haccept
    split at haccept
    · cases haccept
    · cases haccept
      exact h.saved htarget hhash hstate hroom hsave
    · rename_i S saved hchunk
      have hfound : getDownloadIndexById p S = some (index, slot) := by
        rw [getDownloadIndexById, (saveChunk_frame hchunk).1]
        exact htarget.found
      obtain ⟨hclosed, hlines⟩ := h.filled htarget hhash hsave hchunk
      rw [abortDownload_eq hfound] at haccept
      cases haccept
      rw [assign_fst]
      exact hclosed.assigned (fun lines hl => hdistinct lines (hlines ▸ hl))
        (fun _ _ hpick => pickEntry_some hpick) p clk

/-! ## Timeouts -/

/-- The stream that times out is the first of its peer. -/
def TimesOutFirst (now : Time) (rto : Int) (d : Downloads) : Prop :=
  ∀ idle, d.slots.find? (DownloadSlot.timedOut now rto) = some idle →
    ∀ index slot, getDownloadIndexById idle.downloadId d = some (index, slot) →
      slot.timedOut now rto = true

theorem TimesOutFirst.freed {now : Time} {rto : Int} {q : Int} (h : TimesOutFirst now rto d)
    (hclean : cleanDownloadTimeout now rto d = .ok (some (q, hash, d'))) : ∃ index slot,
      getDownloadIndexById q d = some (index, slot) ∧ slot.downloadChunk = some hash := by
  obtain ⟨i, idle, hash', hget, hfind, hfirst, -, hhash, hr⟩ := cleanDownloadTimeout_some hclean
  cases hr
  obtain ⟨index, slot, hfound, hle⟩ : ∃ index slot,
      getDownloadIndexById idle.downloadId d = some (index, slot) ∧ index ≤ i :=
    Table.lookup_exists hget rfl
  have hslot := getDownloadIndexById_get hfound
  have hindex : index = i := by
    refine le_antisymm hle (Nat.le_of_not_lt fun hlt => ?_)
    have htimed := h idle hfind index slot hfound
    rw [hfirst index slot hlt hslot] at htimed
    cases htimed
  subst hindex
  have hsame : slot = idle := Option.some.inj (hslot.symm.trans hget)
  exact ⟨index, slot, hfound, hsame ▸ hhash⟩

theorem Roomy.crash {now : Time} {rto : Int} {crashed : Bool} (h : Roomy d)
    (hfirst : TimesOutFirst now rto d) (hc : Crash now rto d crashed d') : Roomy d' := by
  cases hc with
  | calm _ => exact h
  | early hclean _ =>
    obtain ⟨-, -, rfl⟩ := cleanDownloadTimeout_eq hclean
    exact h.abort _
  | @removed q hash d₁ hclean _ =>
    obtain ⟨index, slot, hfound, hnamed⟩ := hfirst.freed hclean
    obtain ⟨-, -, rfl⟩ := cleanDownloadTimeout_eq hclean
    refine Roomy.congr (d := resetChunk hash (abortDownload q d)) ?_ rfl rfl
    have hfreed := h.abort q
    unfold resetChunk
    split
    · exact hfreed
    · rename_i request hrequest
      split
      · exact hfreed
      · rename_i entry chunk hentry
        rw [abortDownload_eq hfound] at hrequest ⊢
        have hhash : chunk.hash = hash := Table.lookup_key hentry
        have hgiven := h.close (S := d.writeChunk entry (chunk.reset .notStarted))
          (getDownloadIndexById_get hfound) (by rw [hnamed, hhash]) hrequest (Table.lookup_get hentry) rfl
          (writeChunk_currentRequest hrequest entry _) rfl fun _ => rfl
        exact hgiven

theorem Crash.lines {now : Time} {rto : Int} {crashed : Bool} (hc : Crash now rto d crashed d') :
    d'.lines = d.lines := by
  have habort : ∀ q, (abortDownload q d).lines = d.lines := fun q => by
    rw [Downloads.lines, (abortDownload_frame q d).2, Downloads.lines]
  cases hc with
  | calm _ => rfl
  | early hclean _ =>
    obtain ⟨-, -, rfl⟩ := cleanDownloadTimeout_eq hclean
    exact habort _
  | removed hclean _ =>
    obtain ⟨-, -, rfl⟩ := cleanDownloadTimeout_eq hclean
    exact (lines_resetChunk _ _).trans (habort _)

/-! ## Runs -/

/-- What the lines of every GET file have, the lines of the current request have. -/
theorem lines_reach {P : List (Int × Hash) → Prop} {max : Nat} {has : List Chunk} {files : String → Memory}
    {Ok : Downloads → DownloadLog → DownloadEvent → Prop}
    (hget : ∀ d log outf lines, Ok d log (.userGet outf (some lines)) → P lines)
    (h : (downloadMachine env).Reach (· = initDownloads max has files) Ok d log) :
    ∀ lines, d.lines = some lines → P lines := by
  refine run_invariant (I := fun d _ => ∀ lines, d.lines = some lines → P lines) False False
    (fun d hd => ?_) (fun _ _ _ _ hv => hv.elim) (fun _ _ _ _ _ hl => hl.elim)
    (fun d log l d' hI hm lines hlines => ?_) (fun d log outf parsed l d' hI hok hs lines hlines => ?_) h
  · subst hd
    exact fun lines hlines => by cases hlines
  · rcases hm.lines with hsame | hnone
    · exact hI lines (hsame ▸ hlines)
    · rw [Downloads.lines, hnone] at hlines
      cases hlines
  · rcases userGet_cases hs with ⟨rfl, -⟩ | ⟨parsed', sent, -, rfl, -, rfl, -⟩
    · exact hI lines hlines
    · have hsame : parsed' = lines := (line_requestEntry parsed').symm.trans (Option.some.inj hlines)
      exact hsame ▸ hget d log outf parsed' hok

/-- In a GET file the hashes are distinct and the ids that are positions are those of their lines; a DATA
packet is from a peer and, where it is saved, has its place in the stream it is for; and the stream that
times out is the first of its peer. -/
def KeepsRoom (d : Downloads) (_ : DownloadLog) : DownloadEvent → Prop
  | .userGet _ parsed => ∀ lines, parsed = some lines → HashesDistinct lines ∧ IdsArePositions lines
  | .data _ p packet _ => p ≠ idNull ∧
      ∀ index slot, getDownloadIndexById p d = some (index, slot) → Placed slot packet
  | .crash clk rto => TimesOutFirst (clk 0) rto d
  | _ => True

theorem Roomy.ihave {src : Addr} (h : Roomy d)
    (hdistinct : ∀ lines, d.lines = some lines → HashesDistinct lines)
    (hs : inboundIhave src p packet clk d = .ok (d', l)) : Roomy d' := by
  obtain ⟨hcurrent, hslots⟩ := updateConnections_currentRequest (p := p) (d := d) packet
  have hupdated : Roomy (updateConnections p packet d) := h.congr hslots hcurrent
  rw [inboundIhave_outcome hs]
  split_ifs
  · refine hupdated.assigned (fun lines hlines => hdistinct lines ?_) (fun entry chunk hpick => ?_) p clk
    · rw [← hlines, Downloads.lines, Downloads.lines, hcurrent]
    · obtain ⟨request, hentry⟩ := pickEntry_some hpick
      exact ⟨request, hcurrent.trans hentry.current, hentry.get, hentry.state⟩
  · exact hupdated

theorem Roomy.data {src : Addr} (h : Roomy d)
    (hdistinct : ∀ lines, d.lines = some lines → HashesDistinct lines)
    (hids : ∀ lines, d.lines = some lines → IdsArePositions lines)
    (hplaced : ∀ index slot, getDownloadIndexById p d = some (index, slot) → Placed slot packet)
    (hs : inboundData env src p packet clk d = .ok (d', l)) : Roomy d' := by
  rcases inboundData_target hs with ⟨rfl, -⟩ | ⟨index, slot, hash, request, entry, chunk, htarget⟩
  · exact h
  · have hslot := hplaced index slot htarget.found
    have hhash := htarget.hash_eq hids
    have htracked : Roomy (trackDataPacket p packet.seqNumber packet.dataLength (clk 0) d).2 :=
      h.track (fun index slot hfound => (hplaced index slot hfound).le) packet.dataLength (clk 0)
    have htarget' := htarget.tracked
      (advanceRecords packet.seqNumber packet.dataLength slot.lastAckedRecord) (clk 0)
    have heq := trackDataPacket_eq htarget.found packet.seqNumber packet.dataLength (clk 0)
    rw [inboundData_eq htarget] at hs
    simp only at hs
    split_ifs at hs with hexpected
    · split at hs
      · cases hs
      · rename_i d₁ saved haccept
        cases hs
        obtain ⟨hstate, hnewest, -, -⟩ := h.accepts htarget hhash hslot hexpected
        have hroom := h.save htarget hhash hslot hexpected
        rw [heq] at htracked haccept
        refine htracked.acceptData htarget' hdistinct hhash hstate ?_ haccept
        simp only [hnewest]
        exact hroom
    · cases hs
      exact htracked

theorem Roomy.step {ev : DownloadEvent} (h : Roomy d) (hinv : DownloadInv d log)
    (hdistinct : ∀ lines, d.lines = some lines → HashesDistinct lines)
    (hids : ∀ lines, d.lines = some lines → IdsArePositions lines) (hok : KeepsRoom d log ev)
    (hs : (downloadMachine env).step ev d = .ok (d', l)) : Roomy d' := by
  cases ev with
  | whohas src packet => exact inboundWhohas_fst hs ▸ h
  | ihave src p packet clk => exact h.ihave hdistinct hs
  | data src p packet clk => exact h.data hdistinct hids hok.2 hs
  | denied p =>
    obtain ⟨rfl, -⟩ := Prod.mk.inj (Except.ok.inj hs)
    exact h.abort p
  | crash clk rto =>
    obtain ⟨crashed, d₁, hcrash, rfl⟩ := downloadPeerCrashWrapper_outcome hs
    have hc := downloadPeerCrash_outcome hcrash
    have h₁ := h.crash hok hc
    split
    · rename_i q entry chunk hpick
      obtain ⟨-, request, hentry⟩ := pickAChunkAfterCrash_some hpick
      exact h₁.started (fun lines hlines => hdistinct lines (hc.lines ▸ hlines)) hentry clk
    · exact h₁
  | finish =>
    obtain ⟨rfl, -⟩ := Prod.mk.inj (Except.ok.inj hs)
    obtain ⟨hslots, -, hcurrent | hnone⟩ := finishRequest_frame d
    · exact h.congr hslots hcurrent
    · exact ⟨h.numbered.congr hslots, hslots ▸ h.unique, fun _ _ => .none hnone, .none hnone⟩
  | userGet outf parsed =>
    rcases userGet_cases hs with ⟨rfl, -⟩ | ⟨lines, sent, hnone, rfl, -, rfl, -⟩
    · exact h.congr rfl rfl
    · refine ⟨h.numbered.congr rfl, h.unique, fun slot hmem => .requested rfl fun e line _ hnamed => ?_,
        .requested rfl fun e line _ _ => rfl⟩
      -- no stream outlives its request
      obtain ⟨i, hi⟩ := List.mem_iff_getElem?.mp hmem
      obtain ⟨request, hrequest⟩ := hinv.hasRequest hi (hnamed ▸ Option.some_ne_none _)
      rw [hnone] at hrequest
      cases hrequest

theorem roomy_reach {max : Nat} {has : List Chunk} {files : String → Memory}
    (h : (downloadMachine env).Reach (· = initDownloads max has files) KeepsRoom d log) : Roomy d := by
  refine h.invariant (I := fun d _ => Roomy d) (fun d hd => ?_) fun d log ev d' l hreach hI hok hs => ?_
  · subst hd
    have hfree : ∀ slot ∈ (initDownloads max has files).slots, slot = ⟨idNull, none, [], 0⟩ :=
      fun slot hmem => (List.mem_replicate.mp hmem).2
    refine ⟨fun i slot hi => Or.inl ?_, fun i j a b ha _ hne => ?_, fun _ _ => .none rfl, .none rfl⟩
    · rw [hfree slot (List.mem_of_getElem? hi)]
    · exact absurd (congrArg DownloadSlot.downloadChunk (hfree a (List.mem_of_getElem? ha))) hne
  · have hlines := lines_reach (P := fun lines => HashesDistinct lines ∧ IdsArePositions lines)
      (fun _ _ _ lines hget => hget lines rfl) hreach
    exact hI.step (downloadInv_reach hreach) (fun lines hl => (hlines lines hl).1)
      (fun lines hl => (hlines lines hl).2) hok hs

/-- In every run whose steps keep the room, no byte count exceeds the buffer, and the next DATA packet that
keeps it is saved inside the buffer: nothing is copied to a NULL pointer or past the end. -/
theorem data_saved_in_bounds {max : Nat} {has : List Chunk} {files : String → Memory}
    (h : (downloadMachine env).Reach (· = initDownloads max has files) KeepsRoom d log) :
    Entries (fun _ chunk => chunk.receivedByteNumber ≤ btChunkSize) d ∧
      ∀ src p packet clk, KeepsRoom d log (.data src p packet clk) →
        ∃ r, inboundData env src p packet clk d = .ok r := by
  have hroomy := roomy_reach h
  have hinv := downloadInv_reach h
  have hlines := lines_reach (P := fun lines => HashesDistinct lines ∧ IdsArePositions lines)
    (fun _ _ _ lines hget => hget lines rfl) h
  refine ⟨hinv.buffered.mono fun _ _ hb => hb.bound, fun src p packet clk hok => ?_⟩
  obtain ⟨hp, hplaced⟩ := hok
  cases hfound : getDownloadIndexById p d with
  | none =>
    refine ⟨(d, []), ?_⟩
    unfold inboundData
    simp only [hfound]
  | some r =>
    obtain ⟨index, slot⟩ := r
    refine (inboundData_returns_iff h hp hfound src packet clk).mpr ?_
    intro i s hash request entry chunk htarget hexpected
    have hslot := hplaced i s htarget.found
    have hhash := htarget.hash_eq fun lines hl => (hlines lines hl).2
    obtain ⟨hstate, -, -, hcases⟩ := hroomy.accepts htarget hhash hslot hexpected.symm
    rcases hcases with hsize | ⟨hnext, hbytes⟩
    · exact Or.inr (Or.inl hsize)
    · have hsaved := (hinv.buffered request entry chunk htarget.current htarget.get).saved hstate
      have hfits := hslot.fits hnext
      exact Or.inr (Or.inr ⟨hstate, by omega⟩)

/-- Peer 1 offers chunk 0 and has sent the first packet: the second one is saved behind it. -/
theorem data_saved_in_bounds_two : ∃ d log, (d.currentRequest.map fun request =>
      request.chunks.map (·.receivedByteNumber)) = some [1, 0] ∧
    Entries (fun _ chunk => chunk.receivedByteNumber ≤ btChunkSize) d ∧
      ∀ src p packet clk, KeepsRoom d log (.data src p packet clk) →
        ∃ r, inboundData sampleEnv src p packet clk d = .ok r := by
  have hstart : (downloadMachine sampleEnv).Reach (· = initDownloads 1 [] fun _ _ => 0) KeepsRoom
    (initDownloads 1 [] fun _ _ => 0) [] := .start rfl
  have hholds : (downloadMachine sampleEnv).Holds (fun d ev => KeepsRoom d [] ev)
      [.userGet "out" (some sampleLines), .ihave sampleSrc 1 (samplePacket (.ihave [sampleHash 0])) fun _ => 0,
        .data sampleSrc 1 (samplePacket (.data 1 [7])) fun _ => 0] (initDownloads 1 [] fun _ _ => 0) := by
    refine ⟨fun lines hl => Option.some.inj hl ▸ ⟨sampleLines_distinct, sample_positions⟩, fun _ _ hget => ?_⟩
    cases hget
    refine ⟨trivial, fun _ _ hihave => ?_⟩
    cases hihave
    refine ⟨⟨by decide, fun index slot hfound => ?_⟩, fun _ _ _ => trivial⟩
    cases hfound
    exact ⟨fun _ => by decide, fun _ => by decide, by decide⟩
  have hreach := hstart.run (C := fun d ev => KeepsRoom d [] ev) (fun _ _ _ hev => hev) _ hholds rfl
  exact ⟨_, _, rfl, data_saved_in_bounds hreach⟩

end Bittorrent
