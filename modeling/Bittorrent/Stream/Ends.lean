import Bittorrent.Stream.System
import Mathlib.Data.List.TakeWhile

/-!
# What the two ends do

The sender of a stream transmits pieces of one chunk, numbered 1 to 354, and an ACK removes only
numbers up to its own from the sent queue. The receiver's tracker holds one record, the newest
continuous number; `DataStep` lists what a DATA packet does to the stream.

Each end is reduced to a number or two before the two are put together. The sender's part is an invariant of
its slot and queue, kept by each slot operation (`streamOf_kept`). The receiver's is `Tracks`: with one slot
for the peer and one record in it, `track_data_packet` is a function of two numbers (`Tracks.track`), and
the DATA case acknowledges and then, only for the expected packet, saves (`Tracks.dataStep`). `Quiet` is
said of everything else a step logs, in particular of the pick of a next chunk.
-/

namespace Bittorrent

/-! ## The sender -/

section Sender

variable {env : Env} {u u' : Uploads} {up l : UploadLog} {q c : Int} {i n x : Nat}
  {slot : UploadSlot} {clk : Clock}

/-- A free slot has no queue, and a slot of `q` is for the chunk `c` and queues only its packets. -/
def StreamOf (q c : Int) (slot : UploadSlot) (_ : Epoch) : Prop :=
  (slot.uploadId = idNull → slot.seqs = []) ∧
    (slot.uploadId = q → slot.uploadId ≠ idNull →
      slot.uploadChunkId = c ∧ ∀ x ∈ slot.seqs, x ≤ maxPacketPerChunk)

/-- What is transmitted to `q` is a piece of the chunk `c`. -/
def Carries (env : Env) (q c : Int) (_ : Epoch) : StreamAction → Prop
  | .transmitted peerId seq bytes _ =>
    peerId = q → ∃ n < maxPacketPerChunk, seq = n + 1 ∧ ∃ stack, bytes = chunkData env stack c n
  | _ => True

theorem mem_enqueue {seq : Nat} {now : Time} (h : x ∈ (slot.enqueue seq now).seqs) :
    x ∈ slot.seqs ∨ x = seq := by
  simp only [UploadSlot.seqs, UploadSlot.enqueue] at h ⊢
  split_ifs at h
  · exact Or.inr (by simpa using h)
  · simpa using h

theorem mem_unacked (h : x ∈ slot.unacked n) : x ∈ slot.seqs :=
  (List.dropWhile_sublist _).mem h

theorem streamOf_kept (q c : Int) :
    Kept env (StreamOf q c) (Carries env q c) fun q' c' c'' => q' = q → c' = c'' where
  stamp slot now e h := by
    refine ⟨trivial, ?_⟩
    rw [StreamOf, stamp_uploadId, stamp_uploadChunkId, stamp_seqs]
    exact h
  timeout slot e h := ⟨⟨trivial, trivial, trivial⟩, h⟩
  fresh slot c' n stack now hid hR hroom hn hlt e h := by
    refine ⟨⟨fun hq => ⟨n, hlt, rfl, stack, ?_⟩, trivial⟩, fun hfree => absurd hfree hid, fun hq hne => ?_⟩
    · rw [← hR hq, (h.2 hq hid).1]
    · refine ⟨(h.2 hq hid).1, fun x hx => ?_⟩
      rcases mem_enqueue hx with hx | rfl
      · exact (h.2 hq hid).2 x hx
      · exact hlt
  again slot head rest c' stack hid hR hhead hseq hlt e h := by
    refine ⟨⟨fun hq => ⟨head.seq - 1, hlt, rfl, stack, ?_⟩, trivial⟩, h⟩
    rw [← hR hq, (h.2 hq hid).1]
  ack slot slot' seq clk net net' acts htake e h := by
    have hack := takeAck_ok htake
    refine ⟨?_, fun hfree => ?_, fun hq hne => ?_⟩
    · rw [hack.acts]
      split
      · exact ⟨trivial, trivial, trivial⟩
      · exact ⟨trivial, trivial⟩
    · rw [hack.uploadId] at hfree
      rw [hack.seqs, UploadSlot.unacked, h.1 hfree]
      rfl
    · rw [hack.uploadId] at hq hne
      rw [hack.uploadChunkId, hack.seqs]
      exact ⟨(h.2 hq hne).1, fun x hx => (h.2 hq hne).2 x (mem_unacked hx)⟩
  abort slot e h := ⟨⟨trivial, trivial⟩, fun _ => rfl, fun _ hne => absurd rfl hne⟩

theorem Good.pairs (h : Good (StreamOf q c) (Carries env q c) u up) :
    Pairs (fun q' c' c'' => q' = q → c' = c'') u := by
  intro i j a b hi hj hsame hne hq
  rw [((h.1 i a hi).2 hq hne).1, ((h.1 j b hj).2 (hsame ▸ hq) (hsame ▸ hne)).1]

theorem good_opened {u₀ : Uploads} (hclean : CleanUploads u₀)
    (hnone : getUploadIndexById q u₀ = none) (clk : Clock) :
    Good (StreamOf q c) (Carries env q c) (inboundGet q c clk u₀).1 [] := by
  have hstart : Good (StreamOf q c) (Carries env q c) u₀ [] := by
    refine ⟨fun i slot hi => ⟨fun hfree => ?_, fun hq => ?_⟩, always_nil⟩
    · rw [UploadSlot.seqs, hclean i slot hi hfree]
      rfl
    · exact absurd hq (Table.lookup_eq_none.mp hnone i slot hi)
  suffices hget : Good (StreamOf q c) (Carries env q c) (inboundGet q c clk u₀).1
    ([] ++ (inboundGet q c clk u₀).2) from ⟨hget.1, always_nil⟩
  refine hstart.inboundGet clk (fun slot hfree e he => ?_) fun slot _ e he => ?_
  · have hseqs : (slot.start q c (clk 0)).seqs = [] := he.1 hfree
    refine ⟨⟨trivial, trivial⟩, fun _ => hseqs, fun _ _ => ⟨rfl, fun x hx => ?_⟩⟩
    rw [hseqs] at hx
    cases hx
  · exact ⟨⟨trivial, trivial⟩, he⟩

/-- The numbers in the sent queue of a peer. -/
def sentQueue (q : Int) (u : Uploads) : List Nat := u.read q [] UploadSlot.seqs

/-- An ACK removes only numbers up to its own. -/
theorem inboundAck_removed (h : Good (StreamOf q c) (Carries env q c) u up)
    (hs : inboundAck env q n clk u = .ok (u', l)) (hx : x ∈ sentQueue q u)
    (hx' : x ∉ sentQueue q u') : x ≤ n := by
  cases hl : getUploadIndexById q u with
  | none =>
    rw [sentQueue, Uploads.read, hl] at hx
    cases hx
  | some r =>
    obtain ⟨i, slot⟩ := r
    have hid := getUploadIndexById_id hl
    have hslot := h.1 i slot (getUploadIndexById_get hl)
    rw [sentQueue, read_eq hl] at hx
    rw [inboundAck_eq hl] at hs
    split at hs
    · cases hs
    · rename_i slot' net acts htake
      have hack := takeAck_ok htake
      simp only at hs
      split_ifs at hs with hlast
      · -- ACK 354 aborts the upload: every number is at most 354
        rw [hlast]
        refine (hslot.2 hid fun hfree => ?_).2 x hx
        rw [hslot.1 hfree] at hx
        cases hx
      · cases hs
        have hfound : getUploadIndexById q ({ u with net }.write i slot') = some (i, slot') :=
          Table.lookup_set hl (hack.uploadId.trans hid)
        rw [sentQueue, read_eq hfound, hack.seqs] at hx'
        by_contra hlt
        rw [← List.takeWhile_append_dropWhile (p := fun y => decide (y ≤ n)) (l := slot.seqs)] at hx
        rcases List.mem_append.mp hx with hx | hx
        · have hle : decide (x ≤ n) = true :=
            List.mem_takeWhile_imp (p := fun y => decide (y ≤ n)) hx
          exact hlt (of_decide_eq_true hle)
        · exact hx' hx

end Sender

/-! ## The receiver -/

section Receiver

variable {env : Env} {d d' : Downloads} {l : DownloadLog} {p : Int} {index entry n m : Nat}
  {slot slot' : DownloadSlot} {hash : Hash} {request : Request} {chunk chunk' : Chunk}
  {packet : Incoming} {src : Addr} {clk : Clock}

/-- Slot `index` is the only one of `p`, and its tracker holds the number `n` alone. -/
structure Tracks (d : Downloads) (p : Int) (index : Nat) (slot : DownloadSlot) (n : Nat) : Prop where
  get : d.slots[index]? = some slot
  only : ∀ (i : Nat) (s : DownloadSlot), d.slots[i]? = some s → (s.downloadId = p ↔ i = index)
  newest : slot.lastAckedRecord.map (·.seq) = [n]

theorem Tracks.found (h : Tracks d p index slot n) :
    getDownloadIndexById p d = some (index, slot) := by
  refine Table.lookup_eq_some.mpr ⟨h.get, (h.only index slot h.get).mpr rfl, fun j b hj hb hp => ?_⟩
  exact absurd ((h.only j b hb).mp hp) (by omega)

theorem Tracks.congr (h : Tracks d p index slot n) (hslots : d'.slots = d.slots) :
    Tracks d' p index slot n :=
  ⟨hslots ▸ h.get, fun i s hs => h.only i s (hslots ▸ hs), h.newest⟩

theorem Tracks.write (h : Tracks d p index slot n) (hid : slot'.downloadId = p)
    (hnewest : slot'.lastAckedRecord.map (·.seq) = [m]) :
    Tracks (d.write index slot') p index slot' m := by
  have hlt := (List.getElem?_eq_some_iff.mp h.get).1
  refine ⟨Table.get_set_self hlt, fun i s hs => ?_, hnewest⟩
  rcases Table.get_set_cases hlt hs with ⟨rfl, rfl⟩ | ⟨hne, hs⟩
  · exact ⟨fun _ => rfl, fun _ => hid⟩
  · exact h.only i s hs

theorem Tracks.abort (h : Tracks d p index slot n) (hp : p ≠ idNull) (hslots : d'.slots = d.slots) :
    getDownloadIndexById p (abortDownload p d') = none := by
  have h' := h.congr hslots
  have hlt := (List.getElem?_eq_some_iff.mp h'.get).1
  rw [abortDownload_eq h'.found]
  refine Table.lookup_eq_none.mpr fun i s hs hid => ?_
  rcases Table.get_set_cases hlt hs with ⟨-, rfl⟩ | ⟨hne, hs⟩
  · exact hp hid.symm
  · exact hne ((h'.only i s hs).mp hid)

theorem Tracks.track (h : Tracks d p index slot n) (seq length : Nat) (now : Time) :
    ∃ slot', trackDataPacket p seq length now d = (advance n seq, d.write index slot') ∧
      slot'.downloadChunk = slot.downloadChunk ∧
      Tracks (d.write index slot') p index slot' (advance n seq) := by
  obtain ⟨root, hroot, rfl⟩ := List.map_eq_singleton_iff.mp h.newest
  obtain ⟨record, hrecord, hnumber⟩ := advanceRecords_one hroot seq length
  have hid := (h.only index slot h.get).mpr rfl
  refine ⟨{ slot with lastAckedRecord := [record], downloadLastTime := now }, ?_, rfl,
    h.write hid (congrArg (fun k => [k]) hnumber)⟩
  rw [trackDataPacket_eq h.found, hrecord, List.headD_cons, hnumber]

/-- Neither an ACK nor a save. -/
def Quiet : DownloadAction → Prop
  | .sent _ (.ack _) => False
  | .accepted _ _ _ _ _ => False
  | _ => True

/-- What a DATA packet does to the stream in a slot whose tracker holds `n`. -/
inductive DataStep (src : Addr) (p : Int) (packet : Incoming) (d : Downloads) (index : Nat)
    (slot : DownloadSlot) (n : Nat) : DownloadLog → Downloads → Prop
  /-- The hash of the slot leads to no entry. -/
  | ignored : DataStep src p packet d index slot n [] d
  /-- The packet is not the expected one. -/
  | dropped {slot' : DownloadSlot} (hname : slot'.downloadChunk = slot.downloadChunk)
      (htracks : Tracks (d.write index slot') p index slot' (advance n packet.seqNumber))
      (hne : packet.seqNumber ≠ advance n packet.seqNumber) :
      DataStep src p packet d index slot n [.sent (some src) (.ack (advance n packet.seqNumber))]
        (d.write index slot')
  /-- The payload is saved, and the entry is not full. -/
  | saved {slot' : DownloadSlot} {hash : Hash} {request : Request} {entry : Nat}
      {chunk chunk' : Chunk} (hname : slot'.downloadChunk = slot.downloadChunk)
      (htracks : Tracks (d.write index slot') p index slot' (advance n packet.seqNumber))
      (heq : packet.seqNumber = advance n packet.seqNumber)
      (htarget : Target d p index slot hash request entry chunk)
      (hsave : saveDataPacket packet chunk = .ok chunk')
      (hpart : ¬ (chunk'.receivedByteNumber = btChunkSize ∧ chunk'.state ≠ .owned)) :
      DataStep src p packet d index slot n
        [.sent (some src) (.ack (advance n packet.seqNumber)),
          .accepted index p packet.seqNumber entry packet.payloadSize]
        ((d.write index slot').writeChunk entry chunk')
  /-- The payload completes the entry: the stream is closed, and perhaps another one opened. -/
  | closed {entry : Nat} {rest : DownloadLog} {d' : Downloads}
      (heq : packet.seqNumber = advance n packet.seqNumber) (hdone : .completed entry ∈ rest)
      (hquiet : ∀ a ∈ rest, Quiet a)
      (hclosed : getDownloadIndexById p d' = none ∨ ∃ i e, .handed i p e ∈ rest) :
      DataStep src p packet d index slot n
        (.sent (some src) (.ack (advance n packet.seqNumber)) ::
          .accepted index p packet.seqNumber entry packet.payloadSize :: rest) d'

theorem assign_quiet {picked : Option (Nat × Chunk)} (h : assign src p picked clk d = (d', l)) :
    (∀ a ∈ l, Quiet a) ∧ (d'.slots = d.slots ∨ ∃ i e, .handed i p e ∈ l) := by
  have hmark : ∀ {d : Downloads} {state : ConnectionState},
      (markPeerState p state d).slots = d.slots := by
    intro d state
    obtain ⟨connections, heq, -⟩ := markPeerState_eq p state d
    rw [heq]
  unfold assign at h
  split at h
  · cases h
    exact ⟨fun a ha => absurd ha List.not_mem_nil, Or.inl hmark⟩
  · rename_i entry chunk
    unfold openStream at h
    split at h
    · cases h
      refine ⟨fun a ha => ?_, Or.inl hmark⟩
      rw [List.mem_singleton.mp ha]
      trivial
    · rename_i index d₁ _
      cases h
      refine ⟨fun a ha => ?_, Or.inr ⟨index, entry, by simp⟩⟩
      simp only [List.mem_cons, List.not_mem_nil, or_false] at ha
      rcases ha with rfl | rfl | rfl <;> trivial

theorem saveChunk_none (hrequest : d.currentRequest = some request)
    (hget : request.chunks[entry]? = some chunk) (h : saveChunk env entry d = .ok none) :
    ¬ (chunk.receivedByteNumber = btChunkSize ∧ chunk.state ≠ .owned) := by
  intro hfull
  unfold saveChunk at h
  simp only [hrequest, hget] at h
  rw [if_pos hfull] at h
  split at h
  · cases h
  · split_ifs at h <;> cases h

theorem saveChunk_quiet (hrequest : d.currentRequest = some request)
    (hget : request.chunks[entry]? = some chunk) (h : saveChunk env entry d = .ok (some (d', l))) :
    .completed entry ∈ l ∧ ∀ a ∈ l, Quiet a := by
  obtain ⟨-, -, data, -, hcases⟩ := saveChunk_some hrequest hget h
  rcases hcases with ⟨-, hr⟩ | ⟨-, hr⟩
  · cases hr
    refine ⟨by simp, fun a ha => ?_⟩
    rw [List.mem_singleton.mp ha]
    trivial
  · cases hr
    refine ⟨by simp, fun a ha => ?_⟩
    simp only [List.mem_cons, List.not_mem_nil, or_false] at ha
    rcases ha with rfl | rfl <;> trivial

theorem Target.acceptStep (htarget : Target d p index slot hash request entry chunk) (hp : p ≠ idNull)
    (hname : slot'.downloadChunk = slot.downloadChunk)
    (htracks : Tracks (d.write index slot') p index slot' (advance n packet.seqNumber))
    (heq : packet.seqNumber = advance n packet.seqNumber)
    (h : acceptData env src index p packet entry chunk clk (d.write index slot') = .ok (d', l)) :
    DataStep src p packet d index slot n (.sent (some src) (.ack (advance n packet.seqNumber)) :: l)
      d' := by
  unfold acceptData at h
  split at h
  · cases h
  · rename_i chunk' hsave
    have hcurrent : ((d.write index slot').writeChunk entry chunk').currentRequest = _ :=
      writeChunk_currentRequest htarget.current entry chunk'
    have hget : ({ request with chunks := request.chunks.set entry chunk' } :
      Request).chunks[entry]? = some chunk' :=
        Table.get_set_self (List.getElem?_eq_some_iff.mp htarget.get).1
    simp only at h
    split at h
    · cases h
    · rename_i hnone
      cases h
      exact .saved hname htracks heq htarget hsave (saveChunk_none hcurrent hget hnone)
    · rename_i d₂ done hdone
      obtain ⟨hcompleted, hsaved⟩ := saveChunk_quiet hcurrent hget hdone
      have hclosed := htracks.abort hp (saveChunk_frame hdone).1
      cases hnext : assign src p (pickANewChunk p (abortDownload p d₂)) clk (abortDownload p d₂) with
      | mk d₃ next =>
        rw [hnext] at h
        cases h
        obtain ⟨hquiet, hopen⟩ := assign_quiet hnext
        refine .closed heq (List.mem_append_left next hcompleted) (fun a ha => ?_) ?_
        · rcases List.mem_append.mp ha with ha | ha
          · exact hsaved a ha
          · exact hquiet a ha
        · rcases hopen with hsame | ⟨i, e, hmem⟩
          · refine Or.inl ?_
            rw [getDownloadIndexById, hsame]
            exact hclosed
          · exact Or.inr ⟨i, e, List.mem_append_right done hmem⟩

theorem Tracks.dataStep (h : Tracks d p index slot n) (hp : p ≠ idNull)
    (hs : inboundData env src p packet clk d = .ok (d', l)) :
    DataStep src p packet d index slot n l d' := by
  rcases inboundData_target hs with ⟨rfl, rfl⟩ | ⟨i, s, hash, request, entry, chunk, htarget⟩
  · exact .ignored
  · have hsame := h.found.symm.trans htarget.found
    cases hsame
    obtain ⟨slot', htrack, hname, htracks⟩ := h.track packet.seqNumber packet.dataLength (clk 0)
    rw [inboundData_eq htarget, htrack] at hs
    simp only at hs
    split_ifs at hs with heq
    · cases haccept : acceptData env src index p packet entry chunk clk (d.write index slot') with
      | error f =>
        rw [haccept] at hs
        cases hs
      | ok r =>
        rw [haccept] at hs
        cases hs
        exact htarget.acceptStep hp hname htracks heq haccept
    · cases hs
      exact .dropped hname htracks heq

theorem startDownload_tracks {d₀ : Downloads} (hclean : FreeEmpty d₀)
    (hnone : getDownloadIndexById p d₀ = none)
    (hstart : startDownload p hash clk d₀ = some (index, d)) :
    ∃ slot, d = d₀.write index slot ∧ slot.downloadChunk = some hash ∧ Tracks d p index slot 0 := by
  have hd : d₀.opened p hash clk = d := by rw [Downloads.opened, hstart]
  unfold startDownload at hstart
  split at hstart
  · cases hstart
  · rename_i index' free hfree
    obtain ⟨rfl, -⟩ := Prod.mk.inj (Option.some.inj hstart)
    have hrecords : free.lastAckedRecord = [] :=
      hclean index' free (getDownloadIndexById_get hfree) (getDownloadIndexById_id hfree)
    have hlt := Table.lookup_lt hfree
    rw [opened_fresh hfree hnone, hrecords] at hd
    subst hd
    refine ⟨_, rfl, rfl, ?_⟩
    refine ⟨Table.get_set_self hlt, fun i s hs => ?_, rfl⟩
    rcases Table.get_set_cases hlt hs with ⟨rfl, rfl⟩ | ⟨hne, hs⟩
    · exact ⟨fun _ => rfl, fun _ => rfl⟩
    · exact ⟨fun hp => absurd hp (Table.lookup_eq_none.mp hnone i s hs), fun he => absurd he hne⟩

theorem DownloadOpened.tracks {k : Link} (h : DownloadOpened k request entry chunk d) :
    ∃ d₀ index slot, CleanDownloads d₀ ∧ Unfinished d₀ request entry chunk ∧
      d = (d₀.writeChunk entry { chunk with state := .receiving }).write index slot ∧
      slot.downloadChunk = some chunk.hash ∧ Tracks d k.senderId index slot 0 := by
  obtain ⟨d₀, clk, index, hclean, -, hnone, hentry, hstart⟩ := h
  -- picking the entry leaves the slots
  have hslots : FreeEmpty (d₀.writeChunk entry { chunk with state := .receiving }) := hclean.slots
  obtain ⟨slot, hd, hname, htracks⟩ := startDownload_tracks hslots hnone hstart
  exact ⟨d₀, index, slot, hclean, hentry, hd, hname, htracks⟩

end Receiver

end Bittorrent
