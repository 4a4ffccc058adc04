import Bittorrent.Download.Delivery
import Bittorrent.Files.MakeChunks
import Bittorrent.Peer.Fetching

/-!
# From a file to its copy

A file is cut by `make_chunks`, the printed chunk file is parsed for a GET line, and the request is downloaded
from anyone. When it is over, the output file has chunk by chunk the digests of the original, and keeps them.

Three results are put together. `RoundTrip` says which request the printed chunk file is parsed to, entry
`i` with the digest of part `i` (`request_of_text`). `Delivery` follows that request through a run of the
downloading side, and `delivery_program` carries it to a run of the program, where the lines of standard
input are the only thing that could name the file again. When the request is over every region of the output
file has the digest of its entry (`parts_delivered`); if no other bytes have it, the two files are equal
byte by byte. The last part of a file that does not fill a chunk has the digest of a shorter string, while a
region is always a whole chunk, which is why `short_chunk_open` needs a collision to end.
-/

namespace Bittorrent

variable {env : Env} {s s' : Peer} {log l : PeerLog} {ev : PeerEvent} {outf : String}
  {lines : List (Int × Hash)} {has : List Chunk}

/-! ## The downloading side in a step -/

/-- The downloading side takes a step of its own, which is not a GET line, or none. -/
def SideStep (env : Env) (s : Peer) (l : PeerLog) (s' : Peer) : Prop :=
  (s'.downloads = s.downloads ∧ l.downloads = []) ∨
    ∃ ev, (∀ name parsed, ev ≠ .userGet name parsed) ∧
      (downloadMachine env).step ev s.downloads = .ok (s'.downloads, l.downloads)

theorem sideStep_upload {r : Except Fault (Uploads × UploadLog)} (h : s.upload r = .ok (s', l)) :
    SideStep env s l s' := by
  obtain ⟨u, up, -, rfl, rfl⟩ := upload_ok h
  exact Or.inl ⟨rfl, downloads_inl up⟩

theorem sideStep_download (ev : DownloadEvent) (hne : ∀ name parsed, ev ≠ .userGet name parsed)
    (h : s.download ((downloadMachine env).step ev s.downloads) = .ok (s', l)) : SideStep env s l s' := by
  obtain ⟨d, down, hs, rfl, rfl⟩ := download_ok h
  refine Or.inr ⟨ev, hne, ?_⟩
  rw [hs, downloads_inr]

theorem sideStep_packet {src : Addr} {packet : Incoming} {clk : Clock}
    (h : processInboundUdp env src packet clk s = .ok (s', l)) : SideStep env s l s' := by
  unfold processInboundUdp at h
  simp only at h
  split_ifs at h
  · exact sideStep_download (.whohas src packet) (fun _ _ => DownloadEvent.noConfusion) h
  · exact sideStep_download (.ihave src _ packet clk) (fun _ _ => DownloadEvent.noConfusion) h
  · unfold inboundGetPacket at h
    simp only at h
    split_ifs at h
    · exact sideStep_upload h
    · cases h
      exact Or.inl ⟨rfl, rfl⟩
  · exact sideStep_download (.data src _ packet clk) (fun _ _ => DownloadEvent.noConfusion) h
  · exact sideStep_upload h
  · exact sideStep_download (.denied _) (fun _ _ => DownloadEvent.noConfusion) h
  · cases h
    exact Or.inl ⟨rfl, rfl⟩

/-- GET lines may be read that name other files. -/
def OtherLine (outf : String) : PeerEvent → Prop
  | .line name _ => name ≠ outf
  | _ => True

theorem delivery_sideStep (hids : FileIds lines) (hwrites : env.WritesAll outf)
    (h : Delivery env outf lines has s.downloads log.downloads)
    (hs : SideStep env s l s') : Delivery env outf lines has s'.downloads (log ++ l).downloads := by
  rw [downloads_append]
  rcases hs with ⟨hsame, hnone⟩ | ⟨ev, hne, hstep⟩
  · rw [hsame, hnone, List.append_nil]
    exact h
  · have hpath : Path (Move env False False) s.downloads l.downloads s'.downloads :=
      step_path False.elim False.elim hne hstep
    exact hpath.invariant (fun d log l d' hI hm => delivery_move hids hwrites hI hm) h

theorem delivery_step (hids : FileIds lines) (hwrites : env.WritesAll outf)
    (h : Delivery env outf lines has s.downloads log.downloads)
    (hok : OtherLine outf ev) (hs : (peerMachine env).step ev s = .ok (s', l)) :
    Delivery env outf lines has s'.downloads (log ++ l).downloads := by
  cases ev with
  | packet src packet clk => exact delivery_sideStep hids hwrites h (sideStep_packet hs)
  | line name parsed =>
    obtain ⟨d, down, hget, rfl, rfl⟩ := download_ok hs
    rw [downloads_append, downloads_inr]
    exact delivery_userGet hok h hget
  | send pass =>
    have hsend : s.upload (.ok (sendDataPackets env pass s.uploads)) = .ok (s', l) := hs
    exact delivery_sideStep hids hwrites h (sideStep_upload hsend)
  | clean now =>
    have hclean : s.upload (.ok (cleanUploadTimeout now s.uploads)) = .ok (s', l) := hs
    exact delivery_sideStep hids hwrites h (sideStep_upload hclean)
  | crash clk =>
    exact delivery_sideStep hids hwrites h (sideStep_download (.crash clk _) (fun _ _ => DownloadEvent.noConfusion) hs)
  | finish =>
    exact delivery_sideStep hids hwrites h (sideStep_download .finish (fun _ _ => DownloadEvent.noConfusion) hs)

/-! ## Runs of the program -/

/-- None of the lines that this input completes is a GET line for the file. -/
def OtherInput (outf : String) (p : Program) (_ : PeerLog) (input : Input) : Prop :=
  ∀ userbuf lines, p.readStdin input = .ok (userbuf, lines) → ¬ NamesFile outf lines

/-- A GET line was accepted: its request is current. -/
def Accepted (request : Request) (p : Program) : Prop := p.peer.downloads.currentRequest = some request

theorem delivery_events (hids : FileIds lines) (hwrites : env.WritesAll outf) {events : List PeerEvent}
    (h : Delivery env outf lines has s.downloads log.downloads) (hok : ∀ ev ∈ events, OtherLine outf ev)
    (hs : (peerMachine env).run events s = .ok (s', l)) :
    Delivery env outf lines has s'.downloads (log ++ l).downloads := by
  induction events generalizing s log l with
  | nil =>
    cases hs
    rwa [List.append_nil]
  | cons ev events ih =>
    rw [Machine.run] at hs
    split at hs
    · cases hs
    · rename_i s₁ l₁ hstep
      split at hs
      · cases hs
      · rename_i s₂ l₂ hrest
        cases hs
        have hfirst := delivery_step hids hwrites h (hok ev List.mem_cons_self) hstep
        rw [← List.append_assoc]
        exact ih hfirst (fun ev' hmem => hok ev' (List.mem_cons_of_mem _ hmem)) hrest

theorem otherLine_events {it : Iteration} (h : ∀ get ∈ it.lines, get.1 ≠ outf) :
    ∀ ev ∈ it.events, OtherLine outf ev := by
  intro ev hmem
  simp only [Iteration.events, List.append_assoc, List.mem_append] at hmem
  rcases hmem with hmem | hmem | hmem
  · obtain ⟨r, -, rfl⟩ := Option.map_eq_some_iff.mp (Option.mem_toList.mp hmem)
    trivial
  · obtain ⟨get, hget, rfl⟩ := List.mem_map.mp hmem
    exact h get hget
  · simp only [List.mem_cons, List.not_mem_nil, or_false] at hmem
    rcases hmem with rfl | rfl | rfl | rfl <;> trivial

theorem delivery_program {p : Program} {request : Request} (hids : FileIds (request.chunks.map Chunk.line))
    (hwrites : env.WritesAll outf)
    (hrequest : request = ⟨some outf, (request.chunks.map Chunk.line).map requestEntry⟩)
    (h : (programMachine env).Reach (Accepted request) (OtherInput outf) p log) :
    ∃ has, Delivery env outf (request.chunks.map Chunk.line) has p.peer.downloads log.downloads := by
  induction h with
  | @start p hp =>
    rw [Accepted, hrequest] at hp
    exact ⟨p.peer.downloads.hasChunkTable, delivery_requested ⟨hp, rfl⟩⟩
  | @step p p' log l input _ hok hs ih =>
    obtain ⟨has, hdelivery⟩ := ih
    obtain ⟨it, hit, hlines, -⟩ := iterate_events hs
    refine ⟨has, delivery_events hids hwrites hdelivery (otherLine_events fun get hmem hname => ?_) hit⟩
    obtain ⟨userbuf, lines, hread, hnames⟩ := hlines get hmem
    exact hok userbuf lines hread (hname ▸ hnames)

/-! ## The file -/

variable {stack stack' : Memory} {stale : Stale} {content text : List UInt8} {request : Request}
  {parts : List (List UInt8)} {p : Program} {count : Nat}

theorem lines_table (hashes : List Hash) (outf : Option String) :
    (roundTripTable hashes outf).chunks.map Chunk.line = hashes.mapIdx fun i hash => (toInt32 i, hash) := by
  rw [roundTripTable, map_mapIdx]
  simp only [Chunk.line, roundTripChunk]

theorem roundTripTable_eq (hashes : List Hash) (outf : String) :
    roundTripTable hashes (some outf) =
      ⟨some outf, ((roundTripTable hashes (some outf)).chunks.map Chunk.line).map requestEntry⟩ := by
  rw [lines_table, map_mapIdx]
  simp only [roundTripTable, roundTripChunk, requestEntry, Option.isSome_some, if_true]

theorem fileIds_table {hashes : List Hash} (hcount : hashes.length ≤ 4096) (outf : Option String) :
    FileIds ((roundTripTable hashes outf).chunks.map Chunk.line) := by
  have hline : ∀ (i : Nat) (a : Int × Hash),
      ((roundTripTable hashes outf).chunks.map Chunk.line)[i]? = some a → i < 4096 ∧ a.1 = i := by
    intro i a hi
    rw [lines_table, List.getElem?_mapIdx] at hi
    obtain ⟨hash, hget, rfl⟩ := Option.map_eq_some_iff.mp hi
    have hlt := (List.getElem?_eq_some_iff.mp hget).1
    have hid : toInt32 (i : Int) = i := toInt32_eq (Int.natCast_nonneg i) (by omega)
    refine ⟨by omega, ?_⟩
    rw [hid]
  constructor
  · intro i j a b hi hj hsame
    have ha := (hline i a hi).2
    have hb := (hline j b hj).2
    omega
  · intro i a hi
    obtain ⟨hlt, ha⟩ := hline i a hi
    omega

theorem request_of_text (hmade : makeChunksMain stack (some content) = .ok text)
    (hparsed : parseHasGetChunkFile stale (some text) (some outf) = .ok (some request)) :
    ∃ parts, Cut btChunkSize content parts ∧ parts.length = getNumchunks content.length ∧
      request = roundTripTable (parts.map (shahash stack)) (some outf) := by
  obtain ⟨parts, hcut, hcount, rfl⟩ := makeChunksMain_ok hmade
  refine ⟨parts, hcut, hcount, ?_⟩
  have hsame := (parseLines_printChunks (parts.map (shahash stack)) stale (some outf)).symm.trans hparsed
  exact (Option.some.inj (Except.ok.inj hsame)).symm

theorem parts_delivered (hcount : parts.length ≤ 4096)
    (hsha : env.shahash = shahash stack') (hwrites : env.WritesAll outf)
    (h : (programMachine env).Reach (Accepted (roundTripTable (parts.map (shahash stack)) (some outf)))
      (OtherInput outf) p log)
    (hdone : Named (· ≠ some outf) p.peer.downloads) {i : Nat} {part : List UInt8}
    (hi : parts[i]? = some part) :
    Sha1.digest (fileChunk (p.peer.downloads.files outf) i) = Sha1.digest part := by
  have hsmall : (parts.map (shahash stack)).length ≤ 4096 := by rwa [List.length_map]
  have hids := fileIds_table hsmall (some outf)
  obtain ⟨has, ⟨hcurrent, hinv⟩ | hcomplete⟩ := delivery_program hids hwrites (roundTripTable_eq _ outf) h
  · obtain ⟨request, hrequest, -⟩ := Option.map_eq_some_iff.mp hcurrent
    exact absurd (hinv.name request hrequest) (hdone request hrequest)
  · have hlt := (List.getElem?_eq_some_iff.mp hi).1
    have hmem : ((toInt32 i, shahash stack part) : Int × Hash) ∈
        (roundTripTable (parts.map (shahash stack)) (some outf)).chunks.map Chunk.line := by
      rw [lines_table]
      refine List.mem_of_getElem? (i := i) ?_
      rw [List.getElem?_mapIdx, List.getElem?_map, hi, Option.map_some, Option.map_some]
    have hverified := congrArg Subtype.val (hcomplete.verified _ hmem)
    rw [hsha, shahash_eq, shahash_eq, toInt32_eq (Int.natCast_nonneg i) (by omega)] at hverified
    exact hverified

theorem readBytes_eq_of_parts {m : Memory} {size : Nat} (hlength : content.length = count * size)
    (h : ∀ i < count, readBytes m (i * size) size = (content.drop (i * size)).take size) :
    readBytes m 0 content.length = content := by
  induction count generalizing content with
  | zero =>
    rw [Nat.zero_mul] at hlength
    rw [List.length_eq_zero_iff.mp hlength]
    rfl
  | succ count ih =>
    have hinit : (content.take (count * size)).length = count * size := by
      rw [List.length_take, hlength, Nat.succ_mul]
      omega
    have hfirst := ih hinit fun i hi => by
      have hle : (i + 1) * size ≤ count * size := Nat.mul_le_mul_right size hi
      rw [Nat.succ_mul] at hle
      rw [h i (Nat.lt_succ_of_lt hi), List.drop_take, List.take_take, Nat.min_eq_left (by omega)]
    have hlast := h count (Nat.lt_succ_self count)
    rw [List.take_of_length_le (by rw [List.length_drop, hlength, Nat.succ_mul]; omega)] at hlast
    rw [hinit] at hfirst
    rw [hlength, Nat.succ_mul, readBytes_append, hfirst, Nat.zero_add, hlast, List.take_append_drop]

/-- A file of whole chunks that `make_chunks` has described and a GET line asks for, whoever sends the
packets: once the request is over, every chunk of the output file has the SHA-1 digest of that chunk of the
original, until a GET line names the output file again. So the two are equal, unless two of these chunks are
different strings with one digest. -/
theorem file_delivered (hlength : content.length = count * btChunkSize) (hcount : count ≤ 4096)
    (hmade : makeChunksMain stack (some content) = .ok text)
    (hparsed : parseHasGetChunkFile stale (some text) (some outf) = .ok (some request))
    (hsha : env.shahash = shahash stack') (hwrites : env.WritesAll outf)
    (h : (programMachine env).Reach (Accepted request) (OtherInput outf) p log)
    (hdone : Named (· ≠ some outf) p.peer.downloads) :
    (∀ i < count, Sha1.digest (fileChunk (p.peer.downloads.files outf) i) =
      Sha1.digest ((content.drop (i * btChunkSize)).take btChunkSize)) ∧
    ((∀ i < count, Sha1.digest (fileChunk (p.peer.downloads.files outf) i) =
        Sha1.digest ((content.drop (i * btChunkSize)).take btChunkSize) →
      fileChunk (p.peer.downloads.files outf) i = (content.drop (i * btChunkSize)).take btChunkSize) →
      readBytes (p.peer.downloads.files outf) 0 content.length = content) := by
  obtain ⟨parts, hcut, hparts, rfl⟩ := request_of_text hmade hparsed
  have hnumber : parts.length = count := by
    rw [hparts, getNumchunks, hlength]
    simp only [btChunkSize]
    omega
  have hdigest : ∀ i < count, Sha1.digest (fileChunk (p.peer.downloads.files outf) i) =
      Sha1.digest ((content.drop (i * btChunkSize)).take btChunkSize) := by
    intro i hi
    have hget : parts[i]? = some parts[i] := List.getElem?_eq_getElem (by omega)
    rw [← hcut.getElem? hget]
    exact parts_delivered (by omega) hsha hwrites h hdone hget
  exact ⟨hdigest, fun hsame => readBytes_eq_of_parts hlength fun i hi => hsame i hi (hdigest i hi)⟩

theorem single_request (hne : content ≠ []) (hle : content.length ≤ btChunkSize) : ∃ text,
    makeChunksMain stack (some content) = .ok text ∧ parseHasGetChunkFile stale (some text) (some "out") =
      .ok (some ⟨some "out", [requestEntry (0, shahash stack content)]⟩) := by
  have hpos := List.length_pos_iff.mpr hne
  have hfile : content.length + btChunkSize ≤ 2 ^ 50 := by
    simp only [btChunkSize] at hle ⊢
    omega
  obtain ⟨text, hmade⟩ := makeChunksMain_returns stack hfile
  obtain ⟨parts, hcut, hparts, rfl⟩ := makeChunksMain_ok hmade
  have hone : parts.length = 1 := by
    rw [hparts, getNumchunks]
    simp only [btChunkSize] at hle ⊢
    omega
  obtain ⟨part, rfl⟩ := List.length_eq_one_iff.mp hone
  have hpart : part = content := by rw [← hcut.flatten, List.flatten_singleton]
  subst hpart
  exact ⟨_, hmade, parseLines_printChunks _ stale (some "out")⟩

theorem otherInput_message (p : Program) (log : PeerLog) (m : Message) : OtherInput "out" p log (messageInput m) := by
  rintro userbuf lines hread ⟨line, hmem, -⟩
  obtain ⟨-, rfl⟩ := Prod.mk.inj (Except.ok.inj hread)
  cases hmem

/-- A file of one chunk is fetched packet by packet. -/
theorem file_delivered_one : ∃ p : Program, p.peer.downloads.currentRequest = none ∧
    ∀ i : Nat, i < 1 → Sha1.digest (fileChunk (p.peer.downloads.files "out") i) =
      Sha1.digest (((List.replicate btChunkSize 7).drop (i * btChunkSize)).take btChunkSize) := by
  have hlength : (List.replicate btChunkSize (7 : UInt8)).length = btChunkSize := List.length_replicate
  have hne : List.replicate btChunkSize (7 : UInt8) ≠ [] := by
    rw [← List.length_pos_iff, hlength]
    decide
  obtain ⟨text, hmade, hparsed⟩ := @single_request (fun _ => 0) ⟨fun _ => 0, fun _ => 0⟩ _ hne (Nat.le_of_eq hlength)
  have hstart : (programMachine (fetchEnv (shahash fun _ => 0))).Reach (Accepted _) (OtherInput "out")
      (fetcher (asking (shahash (fun _ => 0) (List.replicate btChunkSize 7)))) [] := .start rfl
  obtain ⟨p, log, hreach, hdone⟩ := chunk_fetched hlength otherInput_message hstart
  have hnamed : Named (· ≠ some "out") p.peer.downloads := by
    intro request hrequest
    rw [hdone] at hrequest
    cases hrequest
  have hwhole : (List.replicate btChunkSize (7 : UInt8)).length = 1 * btChunkSize := by rw [hlength, Nat.one_mul]
  exact ⟨p, hdone, (file_delivered hwhole (by decide) hmade hparsed rfl (fun _ => le_refl _) hreach hnamed).1⟩

/-- The digest of a chunk that is short is that of a string of another length when the request is over: so a
file that does not end with a whole chunk keeps its request open, or two strings with one digest are found. -/
theorem short_chunk_open (hshort : content.length % btChunkSize ≠ 0)
    (hcount : getNumchunks content.length ≤ 4096)
    (hmade : makeChunksMain stack (some content) = .ok text)
    (hparsed : parseHasGetChunkFile stale (some text) (some outf) = .ok (some request))
    (hsha : env.shahash = shahash stack') (hwrites : env.WritesAll outf)
    (h : (programMachine env).Reach (Accepted request) (OtherInput outf) p log) :
    (∃ current, p.peer.downloads.currentRequest = some current ∧ current.filename = some outf) ∨
      ∃ last, last = content.drop (content.length / btChunkSize * btChunkSize) ∧
        last ≠ fileChunk (p.peer.downloads.files outf) (content.length / btChunkSize : Nat) ∧
        Sha1.digest (fileChunk (p.peer.downloads.files outf) (content.length / btChunkSize : Nat)) =
          Sha1.digest last := by
  obtain ⟨parts, hcut, hparts, rfl⟩ := request_of_text hmade hparsed
  by_cases hdone : Named (· ≠ some outf) p.peer.downloads
  · refine Or.inr ⟨_, rfl, fun hsame => ?_, ?_⟩
    · -- the chunk of the output file is whole
      have hlength := congrArg List.length hsame
      rw [fileChunk, readBytes_length, List.length_drop, ← Nat.mod_eq_sub_div_mul] at hlength
      have hlt := Nat.mod_lt content.length (show 0 < btChunkSize by decide)
      omega
    · have hnumber : parts.length = content.length / btChunkSize + 1 := by
        rw [hparts, getNumchunks]
        simp only [btChunkSize] at hshort ⊢
        omega
      have hget : parts[content.length / btChunkSize]? = some parts[content.length / btChunkSize] :=
        List.getElem?_eq_getElem (by omega)
      have hpart := hcut.getElem? hget
      rw [List.take_of_length_le] at hpart
      · rw [← hpart]
        exact parts_delivered (by omega) hsha hwrites h hdone hget
      · rw [List.length_drop, ← Nat.mod_eq_sub_div_mul]
        exact Nat.le_of_lt (Nat.mod_lt _ (by decide))
  · simp only [Named, not_forall, not_not] at hdone
    obtain ⟨current, hcurrent, hname⟩ := hdone
    exact Or.inl ⟨current, hcurrent, hname⟩

/-- The only byte of a file is received. -/
theorem short_chunk_open_one : ∃ p : Program, (∃ request ∈ p.peer.downloads.currentRequest,
      request.chunks.map Chunk.receivedByteNumber = [1]) ∧
    ((∃ current, p.peer.downloads.currentRequest = some current ∧ current.filename = some "out") ∨
      ∃ last : List UInt8, last = [7].drop ([7].length / btChunkSize * btChunkSize) ∧
        last ≠ fileChunk (p.peer.downloads.files "out") ([7].length / btChunkSize : Nat) ∧
        Sha1.digest (fileChunk (p.peer.downloads.files "out") ([7].length / btChunkSize : Nat)) =
          Sha1.digest last) := by
  have hshort : ([7] : List UInt8).length % btChunkSize ≠ 0 := by decide
  have hcount : getNumchunks ([7] : List UInt8).length ≤ 4096 := by decide
  obtain ⟨text, hmade, hparsed⟩ := @single_request (fun _ => 0) ⟨fun _ => 0, fun _ => 0⟩ [7] (List.cons_ne_nil _ _)
    (by decide)
  have hstart : (programMachine (fetchEnv (shahash fun _ => 0))).Reach (Accepted _) (OtherInput "out")
      (fetcher (asking (shahash (fun _ => 0) [7]))) [] := .start rfl
  obtain ⟨log, hopened⟩ := ihave_fetched otherInput_message hstart
  have hsize : (receiveInto (fun _ => 0) (Message.data 1 [7]).datagram).payloadSize = 1 := by decide
  have hnext : advance 0 (receiveInto (fun _ => 0) (Message.data 1 [7]).datagram).seqNumber =
      (receiveInto (fun _ => 0) (Message.data 1 [7]).datagram).seqNumber := by decide
  have hroom : 0 + (receiveInto (fun _ => 0) (Message.data 1 [7]).datagram).payloadSize < btChunkSize := by
    rw [hsize]
    decide
  have hrecord : advance (PacketRecord.mk 0 1).seq (receiveInto (fun _ => 0) (Message.data 1 [7]).datagram).seqNumber =
      (receiveInto (fun _ => 0) (Message.data 1 [7]).datagram).seqNumber := hnext
  obtain ⟨length, hdata⟩ := receiving_next (fetchEnv (shahash fun _ => 0)) sampleSrc (shahash (fun _ => 0) [7]) 0 none 0
    hrecord hroom fun _ => 0
  obtain ⟨log, hreach⟩ := data_fetched 1 [7] otherInput_message hopened (by decide) hdata (calm_receiving ..)
  rw [finishRequest_receiving, hsize] at hreach
  have hopen := short_chunk_open hshort hcount hmade hparsed rfl (fun _ => le_refl _) hreach
  refine ⟨_, ?_, hopen⟩
  exact ⟨_, rfl, rfl⟩

end Bittorrent
