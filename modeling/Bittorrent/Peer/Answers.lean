import Bittorrent.Download.Adverts
import Bittorrent.Download.Integrity
import Bittorrent.Download.Tracker
import Bittorrent.Peer.Address
import Bittorrent.Peer.Program
import Bittorrent.Stream.Recovery
import Bittorrent.Stream.Whohas
import Bittorrent.Upload.Chunk

/-!
# What a program answers

But for the WHOHAS packets of a user's request a program only answers. The history of a run keeps the packets it
has received with their addresses (`Received`), and every message that it sends is the answer to one of them
(`Answers`): an IHAVE to a WHOHAS, with chunks that were there at the start or have been verified, a GET to an
IHAVE, DATA to a GET, an ACK to DATA. What is needed of the state is that the connections, the upload slots and
the records hold only what has come in (`AnswerInv`).

Each kind of answer has a chain of its own, and `AnswerInv` has a clause for each link:

* A GET is for a hash that the connection of its peer lists, and a connection lists what its peer's IHAVE
  listed (`HasOffered`).
* A DATA packet is of the chunk in the upload slot, which a GET has put there for a hash of the has-chunk
  table (`ServesAsked`, `SendsAsked`).
* An ACK has the tracker's number, and the records are numbers of packets that the peer has sent
  (`RecordsFrom`).
* An IHAVE lists hashes that the WHOHAS asks for and the has-chunk table holds; the table grows by verified
  chunks only (`held_step`).

What has come in only grows, so an answer stays one (`Answers.mono`), and a step need only be asked about
what it sends itself (`AnswerInv.sends`, `AnswerInv.upload`). The program is the peer once more, with its
datagrams beside it (`hearProgram_reach`).
-/

namespace Bittorrent

variable {env : Env} {d d' d₁ : Downloads} {l log : DownloadLog} {p q : Int} {entry : Nat} {chunk : Chunk}
  {hash : Hash} {src : Addr} {dst : Option Addr} {m : Message} {packet : Incoming} {clk : Clock}

/-! ## What a step sends -/

/-- The messages that a step of the downloading side may send. -/
inductive Sends (env : Env) (d : Downloads) : DownloadEvent → Option Addr → Message → Prop
  | ihave {src : Addr} {packet : Incoming} {hashes : List Hash} (hpos : 1 ≤ hashes.length)
      (hlength : hashes.length ≤ chunkPerPacket)
      (hheld : ∀ h ∈ hashes, h ∈ packet.listed ∧ findChunk h d.hasChunkTable = true) :
      Sends env d (.whohas src packet) (some src) (.ihave hashes)
  | get {src : Addr} {p : Int} {packet : Incoming} {clk : Clock} {hash : Hash} (hlisted : hash ∈ packet.listed) :
      Sends env d (.ihave src p packet clk) (some src) (.get hash)
  | ack (src : Addr) (p : Int) (packet : Incoming) (clk : Clock) : Sends env d (.data src p packet clk) (some src)
      (.ack (trackDataPacket p packet.seqNumber packet.dataLength (clk 0) d).1)
  /-- After the end of a chunk. -/
  | next {src : Addr} {p : Int} {packet : Incoming} {clk : Clock} {hash : Hash} (hoffers : d.Offers p hash) :
      Sends env d (.data src p packet clk) (some src) (.get hash)
  | takeover {clk : Clock} {rto : Int} {q : Int} {hash : Hash} (hoffers : d.Offers q hash) :
      Sends env d (.crash clk rto) (findAddr env q) (.get hash)
  | whohas {outf : String} {parsed : Option (List (Int × Hash))} {peer : BtPeer} {hashes : List Hash}
      (hpeer : peer ∈ env.peers) (hother : peer.id ≠ env.identity) (hpos : 1 ≤ hashes.length)
      (hlength : hashes.length ≤ chunkPerPacket) :
      Sends env d (.userGet outf parsed) (some peer.addr) (.whohas hashes)

theorem openStream_sent {peer : Option Addr} (h : openStream peer p entry chunk clk d = (d', l))
    (hmem : .sent dst m ∈ l) : dst = peer ∧ m = .get chunk.hash := by
  unfold openStream at h
  split at h
  · cases h
    simp at hmem
  · cases h
    simpa using hmem

theorem assign_sent {picked : Option (Nat × Chunk)} (h : assign src p picked clk d = (d', l)) (hmem : .sent dst m ∈ l) :
    ∃ entry chunk, picked = some (entry, chunk) ∧ dst = some src ∧ m = .get chunk.hash := by
  unfold assign at h
  split at h
  · cases h
    cases hmem
  · rename_i entry chunk
    exact ⟨entry, chunk, rfl, openStream_sent h hmem⟩

theorem pickEntry_offered {offered : Hash → Bool} (h : pickEntry offered d = some (entry, chunk)) :
    offered chunk.hash = true := by
  unfold pickEntry at h
  split at h
  · cases h
  · have hkey := Table.lookup_key h
    rw [Bool.and_eq_true] at hkey
    exact hkey.2

theorem saveChunk_silent {r : Downloads × DownloadLog} (h : saveChunk env entry d = .ok (some r)) :
    .sent dst m ∉ r.2 := by
  unfold saveChunk at h
  split at h
  · cases h
  · split at h
    · cases h
    · split_ifs at h
      · split at h
        · cases h
        · dsimp only at h
          split_ifs at h
          · cases h
            simp
          · cases h
            simp
      · cases h

theorem acceptData_sent {index : Nat} (h : acceptData env src index p packet entry chunk clk d = .ok (d', l))
    (hmem : .sent dst m ∈ l) : dst = some src ∧ ∃ hash, m = .get hash ∧ d.Offers p hash := by
  unfold acceptData at h
  split at h
  · cases h
  · rename_i chunk' hsave
    dsimp only at h
    split at h
    · cases h
    · cases h
      simp at hmem
    · rename_i d₂ saved hsaved
      cases h
      have hsilent : .sent dst m ∉ saved := saveChunk_silent hsaved
      have hassign : .sent dst m ∈
          (assign src p (pickANewChunk p (abortDownload p d₂)) clk (abortDownload p d₂)).2 := by
        simpa [hsilent] using hmem
      obtain ⟨entry', chunk'', hpick, rfl, rfl⟩ := assign_sent rfl hassign
      have hconnections : (abortDownload p d₂).connections = d.connections :=
        (abortDownload_frame p d₂).1.trans (saveChunk_frame hsaved).2
      exact ⟨rfl, _, rfl, (offers_congr hconnections).mp (pickEntry_offered hpick)⟩

theorem pickAChunkAfterCrash_offers (h : pickAChunkAfterCrash d = some (q, entry, chunk)) : d.Offers q chunk.hash := by
  obtain ⟨c, -, hc⟩ := List.exists_of_findSome?_eq_some h
  split_ifs at hc
  obtain ⟨⟨e, c'⟩, hpick, he⟩ := Option.map_eq_some_iff.mp hc
  cases he
  exact pickEntry_offered hpick

theorem step_sends {ev : DownloadEvent} (hd : d.peers.Nodup) (h : (downloadMachine env).step ev d = .ok (d', l))
    (hmem : .sent dst m ∈ l) : Sends env d ev dst m := by
  cases ev with
  | whohas src packet =>
    simp only [downloadMachine, inboundWhohas] at h
    split_ifs at h with hnone hlength
    · cases h
      cases hmem
    · cases h
      obtain ⟨rfl, rfl⟩ := DownloadAction.sent.inj (List.mem_singleton.mp hmem)
      exact .ihave (List.length_pos_iff.mpr hnone) hlength fun h hh => List.mem_filter.mp hh
  | ihave src p packet clk =>
    simp only [downloadMachine, inboundIhave] at h
    split at h
    · cases h
    · split_ifs at h
      · obtain ⟨entry, chunk, hpick, rfl, rfl⟩ := assign_sent (Except.ok.inj h) hmem
        have hcontains := pickEntry_offered hpick
        rw [packetContainChunk, List.any_eq_true] at hcontains
        obtain ⟨i, hi, heq⟩ := hcontains
        exact .get (List.mem_map.mpr ⟨i, hi, (of_decide_eq_true heq).symm⟩)
      · cases h
        cases hmem
  | data src p packet clk =>
    have h : inboundData env src p packet clk d = .ok (d', l) := h
    rcases inboundData_target h with ⟨-, rfl⟩ | ⟨index, slot, hash, request, entry, chunk, htarget⟩
    · cases hmem
    · have hack : ∀ {l : DownloadLog}, .sent dst m ∈ [.sent (some src)
          (.ack (trackDataPacket p packet.seqNumber packet.dataLength (clk 0) d).1)] ++ l →
            Sends env d (.data src p packet clk) dst m ∨ .sent dst m ∈ l := by
        intro l hmem
        rcases List.mem_append.mp hmem with hmem | hmem
        · obtain ⟨rfl, rfl⟩ := DownloadAction.sent.inj (List.mem_singleton.mp hmem)
          exact Or.inl (.ack src p packet clk)
        · exact Or.inr hmem
      rw [inboundData_eq htarget] at h
      simp only at h
      split_ifs at h
      · split at h
        · cases h
        · rename_i d₁ saved haccept
          cases h
          rcases hack hmem with hsends | hmem
          · exact hsends
          · obtain ⟨rfl, hash, rfl, hoffers⟩ := acceptData_sent haccept hmem
            exact .next ((offers_congr (trackDataPacket_frame p packet.seqNumber packet.dataLength (clk 0) d).1).mp hoffers)
      · cases h
        exact (hack (l := []) hmem).resolve_right List.not_mem_nil
  | denied p =>
    obtain ⟨-, rfl⟩ := Prod.mk.inj (Except.ok.inj h)
    cases hmem
  | crash clk rto =>
    simp only [downloadMachine, downloadPeerCrashWrapper] at h
    split at h
    · cases h
    · cases h
      cases hmem
    · rename_i d₁ hcrash
      split at h
      · cases h
        cases hmem
      · rename_i q entry chunk hpick
        obtain ⟨rfl, rfl⟩ := openStream_sent (Except.ok.inj h) hmem
        exact .takeover (((downloadPeerCrash_outcome hcrash).offers hd).mp (pickAChunkAfterCrash_offers hpick)).1
  | finish =>
    obtain ⟨-, rfl⟩ := Prod.mk.inj (Except.ok.inj h)
    cases hmem
  | userGet outf parsed =>
    rcases userGet_cases h with ⟨-, rfl⟩ | ⟨lines, sent, -, -, hsent, -, rfl⟩
    · cases hmem
    · unfold whohasFlooding at hsent
      split at hsent
      · cases hsent
      · rename_i packets hpackets
        cases hsent
        obtain ⟨peer, hpeer, hmem⟩ := List.mem_flatMap.mp hmem
        obtain ⟨m', hm', heq⟩ := List.mem_map.mp hmem
        obtain ⟨rfl, rfl⟩ := DownloadAction.sent.inj heq
        obtain ⟨hpeer, hother⟩ := List.mem_filter.mp hpeer
        obtain ⟨parts, rfl, hcut⟩ := makeWhohas_cut hpackets
        obtain ⟨hashes, hhashes, rfl⟩ := List.mem_map.mp hm'
        obtain ⟨hpos, hlength⟩ := hcut.bounds hashes hhashes
        exact .whohas hpeer (of_decide_eq_true hother) hpos hlength

/-! ## What has come in -/

/-- The packets a program has received, with their addresses. -/
abbrev Received := List (Addr × Incoming)

section

variable (env : Env) (g : Received)

/-- A packet of a type has come from a peer. -/
structure Came (packetType : Nat) (p : Int) (packet : Incoming) : Prop where
  kind : packet.packetType = packetType
  source : ∃ src, (src, packet) ∈ g ∧ peerIdFrom env src = p

/-- A peer has listed a chunk in an IHAVE. -/
def HasOffered (p : Int) (hash : Hash) : Prop :=
  ∃ packet, Came env g PacketType.ihave p packet ∧ hash ∈ listedHashes packet

/-- A peer has sent a DATA packet of a number. -/
def HasSent (p : Int) (seq : Nat) : Prop := ∃ packet, Came env g PacketType.data p packet ∧ packet.seqNumber = seq

/-- A peer has asked for a chunk that was there or has been verified, and `c` is its id. -/
def HasAskedFor (has : List Chunk) (log : DownloadLog) (p c : Int) : Prop :=
  ∃ packet, Came env g PacketType.get p packet ∧
    HashVerified env has log (readHash packet.buf packet.headerLength) ∧
    c = getChunkId (readHash packet.buf packet.headerLength) env.totalChunkTable

/-- The address is the one in the peer list, or one that a packet of the peer has come from. -/
def AddressOf (p : Int) (dst : Option Addr) : Prop :=
  dst = findAddr env p ∨ ∃ src packet, (src, packet) ∈ g ∧ peerIdFrom env src = p ∧ dst = some src

/-- Every message is the answer to a packet that has come in, but a WHOHAS, which goes to the other peers. -/
def Answers (has : List Chunk) (log : DownloadLog) : (Nat × StreamAction) ⊕ DownloadAction → Prop
  | .inl (_, .transmitted p seq bytes _) =>
    ∃ c n, HasAskedFor env g has log p c ∧ n < maxPacketPerChunk ∧ seq = n + 1 ∧ PayloadOf env c n bytes
  | .inr (.sent dst (.whohas _)) => ∃ peer ∈ env.peers, peer.id ≠ env.identity ∧ dst = some peer.addr
  | .inr (.sent dst (.ihave hashes)) => ∃ src packet, (src, packet) ∈ g ∧ packet.packetType = PacketType.whohas ∧
      dst = some src ∧ ∀ h ∈ hashes, h ∈ packet.listed ∧ HashVerified env has log h
  | .inr (.sent dst (.get hash)) => ∃ p, HasOffered env g p hash ∧ AddressOf env g p dst
  | .inr (.sent dst (.ack n)) => ∃ src packet, (src, packet) ∈ g ∧ packet.packetType = PacketType.data ∧
      dst = some src ∧ (ListedPeers env → n = 0 ∨ HasSent env g (peerIdFrom env src) n)
  | .inr (.sent _ (.data _ _)) => False
  | _ => True

/-- The event is about a packet that has come in. -/
def ComesFrom : DownloadEvent → Prop
  | .whohas src packet => (src, packet) ∈ g ∧ packet.packetType = PacketType.whohas
  | .ihave src p packet _ => (src, packet) ∈ g ∧ packet.packetType = PacketType.ihave ∧ p = peerIdFrom env src
  | .data src p packet _ => (src, packet) ∈ g ∧ packet.packetType = PacketType.data ∧ p = peerIdFrom env src
  | _ => True

end

section

variable {g g' : Received} (hg : g ⊆ g')

include hg

theorem Came.mono {packetType : Nat} (h : Came env g packetType p packet) : Came env g' packetType p packet := by
  obtain ⟨hkind, src, hmem, hid⟩ := h
  exact ⟨hkind, src, hg hmem, hid⟩

theorem HasOffered.mono (h : HasOffered env g p hash) : HasOffered env g' p hash := by
  obtain ⟨packet, hcame, hlisted⟩ := h
  exact ⟨packet, hcame.mono hg, hlisted⟩

theorem HasSent.mono {seq : Nat} (h : HasSent env g p seq) : HasSent env g' p seq := by
  obtain ⟨packet, hcame, hseq⟩ := h
  exact ⟨packet, hcame.mono hg, hseq⟩

theorem HasAskedFor.mono {has : List Chunk} {c : Int} (h : HasAskedFor env g has log p c) (l : DownloadLog) :
    HasAskedFor env g' has (log ++ l) p c := by
  obtain ⟨packet, hcame, hverified, hid⟩ := h
  exact ⟨packet, hcame.mono hg, hverified.append l, hid⟩

theorem AddressOf.mono (h : AddressOf env g p dst) : AddressOf env g' p dst := by
  rcases h with h | ⟨src, packet, hmem, hid, hdst⟩
  · exact Or.inl h
  · exact Or.inr ⟨src, packet, hg hmem, hid, hdst⟩

theorem Answers.mono {has : List Chunk} {a : DownloadAction} (h : Answers env g has log (.inr a)) (l : DownloadLog) :
    Answers env g' has (log ++ l) (.inr a) := by
  cases a with
  | sent dst m =>
    cases m with
    | whohas hashes => exact h
    | ihave hashes =>
      obtain ⟨src, packet, hmem, hkind, hdst, hheld⟩ := h
      exact ⟨src, packet, hg hmem, hkind, hdst, fun h hh => ⟨(hheld h hh).1, (hheld h hh).2.append l⟩⟩
    | get hash =>
      obtain ⟨p, hoffered, haddress⟩ := h
      exact ⟨p, hoffered.mono hg, haddress.mono hg⟩
    | data seq bytes => exact h
    | ack n =>
      obtain ⟨src, packet, hmem, hkind, hdst, hsent⟩ := h
      exact ⟨src, packet, hg hmem, hkind, hdst, fun hpeers => (hsent hpeers).imp_right (HasSent.mono hg)⟩
  | _ => trivial

end

/-! ## The records -/

/-- A free slot has no record, and the records of a stream are of packets that its peer has sent. -/
def RecordsFrom (Sent : Int → Nat → Prop) (slot : DownloadSlot) : Prop :=
  (slot.downloadId = idNull → slot.lastAckedRecord = []) ∧
    ∀ r ∈ slot.lastAckedRecord, r.seq = 0 ∨ Sent slot.downloadId r.seq

theorem mem_addRecord {r : PacketRecord} {seq length : Nat} {records : List PacketRecord}
    (h : r ∈ addRecord seq length records) : r ∈ records ∨ r.seq = seq := by
  induction records with
  | nil => exact Or.inr (congrArg PacketRecord.seq (List.mem_singleton.mp h))
  | cons root rest ih =>
    cases rest with
    | nil =>
      unfold addRecord at h
      split_ifs at h
      · rcases List.mem_cons.mp h with rfl | h
        · exact Or.inl List.mem_cons_self
        · exact Or.inr (congrArg PacketRecord.seq (List.mem_singleton.mp h))
      · exact Or.inl h
    | cons next rest =>
      unfold addRecord at h
      split_ifs at h
      · rcases List.mem_cons.mp h with rfl | h
        · exact Or.inl List.mem_cons_self
        · exact (ih h).imp_left (List.mem_cons_of_mem root)
      · rcases List.mem_cons.mp h with rfl | h
        · exact Or.inl List.mem_cons_self
        · rcases List.mem_cons.mp h with rfl | h
          · exact Or.inr rfl
          · exact Or.inl (List.mem_cons_of_mem root h)
      · exact Or.inl h

theorem mem_skipContinuous {r : PacketRecord} {records : List PacketRecord} (h : r ∈ skipContinuous records) :
    r ∈ records := by
  induction records with
  | nil => exact h
  | cons node rest ih =>
    cases rest with
    | nil => exact h
    | cons next rest =>
      unfold skipContinuous at h
      split_ifs at h
      · exact List.mem_cons_of_mem node (ih h)
      · exact h

section

variable {Sent : Int → Nat → Prop} (h : Slots (RecordsFrom Sent) d)

include h

theorem RecordsFrom.track {seq : Nat} (hp : p ≠ idNull) (hseq : seq = 0 ∨ Sent p seq) (length : Nat) (now : Time) :
    Slots (RecordsFrom Sent) (trackDataPacket p seq length now d).2 ∧
      ((trackDataPacket p seq length now d).1 = 0 ∨ Sent p (trackDataPacket p seq length now d).1) := by
  cases hfound : getDownloadIndexById p d with
  | none =>
    rw [trackDataPacket_none hfound]
    exact ⟨h, hseq⟩
  | some r =>
    obtain ⟨index, slot⟩ := r
    have hget := getDownloadIndexById_get hfound
    have hid := getDownloadIndexById_id hfound
    have hrecords : ∀ r ∈ advanceRecords seq length slot.lastAckedRecord, r.seq = 0 ∨ Sent p r.seq := by
      intro r hr
      rcases mem_addRecord (mem_skipContinuous hr) with hold | hnew
      · exact hid ▸ (h index slot hget).2 r hold
      · rwa [hnew]
    rw [trackDataPacket_eq hfound]
    refine ⟨h.write hget ⟨fun hfree => absurd (hid.symm.trans hfree) hp, hid.symm ▸ hrecords⟩, ?_⟩
    have hne := advanceRecords_ne_nil seq length slot.lastAckedRecord
    rw [List.headD_eq_head?_getD, List.head?_eq_some_head hne, Option.getD_some]
    exact hrecords _ (List.head_mem hne)

theorem RecordsFrom.abort (p : Int) : Slots (RecordsFrom Sent) (abortDownload p d) := by
  cases hfound : getDownloadIndexById p d with
  | none => rwa [abortDownload_none hfound]
  | some r =>
    rw [abortDownload_eq hfound]
    exact h.write (getDownloadIndexById_get hfound) ⟨fun _ => rfl, fun r hr => absurd hr List.not_mem_nil⟩

theorem RecordsFrom.started (hp : p ≠ idNull) : Slots (RecordsFrom Sent) (d.started p entry chunk clk) := by
  have h' : Slots (RecordsFrom Sent) (markPeerState p .working (d.writeChunk entry { chunk with state := .receiving })) :=
    h.congr markPeerState_slots
  rw [Downloads.started]
  cases hfree : getDownloadIndexById idNull
      (markPeerState p .working (d.writeChunk entry { chunk with state := .receiving })) with
  | none => rwa [opened_none (streams_zero.mpr hfree)]
  | some r =>
    obtain ⟨index, slot⟩ := r
    have hget := getDownloadIndexById_get hfree
    have hnil := (h' index slot hget).1 (getDownloadIndexById_id hfree)
    rw [opened_some hfree]
    refine (RecordsFrom.track (h'.write hget ⟨fun hnull => absurd hnull hp, fun r hr => ?_⟩) hp (Or.inl rfl) 1 (clk 2)).1
    rw [DownloadSlot.opened, hnil] at hr
    cases hr

theorem RecordsFrom.assigned {picked : Option (Nat × Chunk)} (hp : p ≠ idNull) :
    Slots (RecordsFrom Sent) (d.assigned p picked clk) := by
  cases picked with
  | none => exact h.congr markPeerState_slots
  | some r => exact RecordsFrom.started h hp

theorem RecordsFrom.crash {now : Time} {rto : Int} {crashed : Bool} (hc : Crash now rto d crashed d₁) :
    Slots (RecordsFrom Sent) d₁ := by
  cases hc with
  | calm _ => exact h
  | early hclean _ =>
    obtain ⟨-, -, rfl⟩ := cleanDownloadTimeout_eq hclean
    exact RecordsFrom.abort h _
  | removed hclean _ =>
    obtain ⟨-, -, rfl⟩ := cleanDownloadTimeout_eq hclean
    exact (RecordsFrom.abort h _).congr resetChunk_slots

theorem RecordsFrom.step {ev : DownloadEvent} (hpeers : PeersValid d.connections) (hvalid : ValidPeer ev)
    (hsent : ∀ src p packet clk, ev = .data src p packet clk → Sent p packet.seqNumber)
    (hs : (downloadMachine env).step ev d = .ok (d', l)) : Slots (RecordsFrom Sent) d' := by
  cases ev with
  | whohas src packet => exact inboundWhohas_fst hs ▸ h
  | ihave src p packet clk =>
    have hupdated := h.congr (updateConnections_currentRequest (p := p) (d := d) packet).2
    rw [inboundIhave_outcome hs]
    split_ifs
    · exact RecordsFrom.assigned hupdated hvalid
    · exact hupdated
  | data src p packet clk =>
    have htrack := fun now => (RecordsFrom.track h hvalid (Or.inr (hsent _ _ _ _ rfl)) packet.dataLength now).1
    rcases inboundData_outcome hs with hquiet | ⟨d₁, hcompletes, rfl⟩
    · rcases hquiet.slots with hslots | ⟨now, hslots⟩
      · exact h.congr hslots
      · exact (htrack now).congr hslots
    · obtain ⟨index, slot, hash, request, entry, chunk, chunk', d₂, saved, -, -, -, hsaved, rfl⟩ := hcompletes
      exact RecordsFrom.assigned (RecordsFrom.abort ((htrack (clk 0)).congr (saveChunk_frame hsaved).1) p) hvalid
  | denied p =>
    obtain ⟨rfl, -⟩ := Prod.mk.inj (Except.ok.inj hs)
    exact RecordsFrom.abort h p
  | crash clk rto =>
    obtain ⟨crashed, d₁, hcrash, rfl⟩ := downloadPeerCrashWrapper_outcome hs
    have h₁ := RecordsFrom.crash h (downloadPeerCrash_outcome hcrash)
    split
    · rename_i q entry chunk hpick
      exact RecordsFrom.started h₁ (picked_valid hpeers hcrash hpick)
    · exact h₁
  | finish =>
    obtain ⟨rfl, -⟩ := Prod.mk.inj (Except.ok.inj hs)
    exact h.congr (finishRequest_frame d).1
  | userGet outf parsed => exact h.congr (userGet_frame hs).1

end

/-! ## The upload slots -/

section

variable {Asked Asked' : Int → Int → Prop} {slot : UploadSlot} {e : Epoch} {u : Uploads} {up : UploadLog}

/-- An upload is of a chunk that its peer has asked for. -/
def ServesAsked (Asked : Int → Int → Prop) (slot : UploadSlot) (_ : Epoch) : Prop :=
  slot.uploadId ≠ idNull → Asked slot.uploadId slot.uploadChunkId

/-- A DATA packet is a part of a chunk that its peer has asked for. -/
def SendsAsked (env : Env) (Asked : Int → Int → Prop) (_ : Epoch) : StreamAction → Prop
  | .transmitted p seq bytes _ =>
    ∃ c n, Asked p c ∧ n < maxPacketPerChunk ∧ seq = n + 1 ∧ PayloadOf env c n bytes
  | _ => True

theorem asked_kept : Kept env (ServesAsked Asked) (SendsAsked env Asked) fun p _ c => Asked p c where
  stamp slot now e h := ⟨trivial, by rwa [ServesAsked, stamp_uploadId, stamp_uploadChunkId]⟩
  timeout slot e h := ⟨⟨trivial, trivial, trivial⟩, h⟩
  fresh slot c n stack now _ hasked _ _ hn e h :=
    ⟨⟨⟨c, n, hasked, hn, rfl, payloadOf_chunkData hn stack c⟩, trivial⟩, h⟩
  again slot head rest c stack _ hasked _ _ hn e h :=
    ⟨⟨⟨c, head.seq - 1, hasked, hn, rfl, payloadOf_chunkData hn stack c⟩, trivial⟩, h⟩
  ack slot slot' seq clk net net' acts htake e h := by
    have hack := takeAck_ok htake
    have h' : ServesAsked Asked slot' e := by
      rw [ServesAsked, hack.uploadId, hack.uploadChunkId]
      exact h
    rw [hack.acts]
    split
    · exact ⟨⟨trivial, trivial, trivial⟩, h'⟩
    · exact ⟨⟨trivial, trivial⟩, h'⟩
  abort slot e h := ⟨⟨trivial, trivial⟩, fun hid => absurd rfl hid⟩

theorem asked_mono (himp : ∀ p c, Asked p c → Asked' p c) (h : Good (ServesAsked Asked) (SendsAsked env Asked) u up) :
    Good (ServesAsked Asked') (SendsAsked env Asked') u up := by
  refine ⟨fun i slot hi hid => himp _ _ (h.1 i slot hi hid), fun pre a post hlog => ?_⟩
  have hsent := h.2 pre a post hlog
  obtain ⟨i, act⟩ := a
  cases act with
  | transmitted p seq bytes retransmit =>
    obtain ⟨c, n, hasked, hrest⟩ := hsent
    exact ⟨c, n, himp p c hasked, hrest⟩
  | _ => trivial

theorem asked_step {ev : UploadEvent} {u' : Uploads} {l : UploadLog}
    (h : Good (ServesAsked Asked) (SendsAsked env Asked) u up) (hget : ∀ p c clk, ev = .get p c clk → Asked p c)
    (hs : (uploadMachine env).step ev u = .ok (u', l)) :
    Good (ServesAsked Asked) (SendsAsked env Asked) u' (up ++ l) := by
  refine asked_kept.step h (fun clk hev i j a b ha hb hid hactive => ?_) (fun p c clk hev => ?_) hs
  · rw [hid]
    exact h.1 j b hb (hid ▸ hactive)
  · exact h.inboundGet clk (fun slot _ e _ => ⟨⟨trivial, trivial⟩, fun _ => hget p c clk hev⟩)
      fun slot _ e he => ⟨⟨trivial, trivial⟩, he⟩

end

/-! ## The chunks that are there -/

theorem resetChunk_hasChunkTable : (resetChunk hash d).hasChunkTable = d.hasChunkTable := by
  unfold resetChunk
  split
  · rfl
  · split <;> rfl

theorem held_move {valid linked : Prop} {has : List Chunk} (h : ∀ c ∈ d.hasChunkTable, HashVerified env has log c.hash)
    (hm : Move env valid linked d l d') : ∀ c ∈ d'.hasChunkTable, HashVerified env has (log ++ l) c.hash := by
  cases hm with
  | verified packet htarget hfull hgood _ _ =>
    intro c hc
    rcases mem_updateIhaveTable hc with hold | hnew
    · exact (h c hold).append _
    · rw [hnew]
      exact Or.inr ⟨_, List.mem_append_right log (by simp), readBytes_length .., hgood⟩
  | crashed _ _ _ _ _ _ =>
    intro c hc
    rw [resetChunk_hasChunkTable] at hc
    exact (h c hc).append _
  | _ => exact fun c hc => (h c hc).append _

theorem held_step {ev : DownloadEvent} {has : List Chunk} (h : ∀ c ∈ d.hasChunkTable, HashVerified env has log c.hash)
    (hs : (downloadMachine env).step ev d = .ok (d', l)) :
    ∀ c ∈ d'.hasChunkTable, HashVerified env has (log ++ l) c.hash := by
  by_cases huser : ∃ outf parsed, ev = .userGet outf parsed
  · obtain ⟨outf, parsed, rfl⟩ := huser
    rcases userGet_cases hs with ⟨rfl, -⟩ | ⟨lines, sent, -, -, -, rfl, -⟩
    · exact fun c hc => (h c hc).append l
    · exact fun c hc => (h c hc).append l
  · have hpath : Path (Move env False False) d l d' := step_path False.elim False.elim
      (fun outf parsed he => huser ⟨outf, parsed, he⟩) hs
    exact hpath.invariant (I := fun d log => ∀ c ∈ d.hasChunkTable, HashVerified env has log c.hash)
      (fun _ _ _ _ h hm => held_move h hm) h

theorem findChunk_mem {table : List Chunk} (h : findChunk hash table = true) : ∃ c ∈ table, c.hash = hash := by
  obtain ⟨c, hc, heq⟩ := List.any_eq_true.mp h
  exact ⟨c, hc, of_decide_eq_true heq⟩

/-! ## The invariant -/

/-- The message of an action, if it sends one. -/
def saying : (Nat × StreamAction) ⊕ DownloadAction → Option Message
  | .inl (_, .transmitted _ seq bytes _) => some (.data seq bytes)
  | .inr (.sent _ m) => some m
  | _ => none

/-- What the state of a peer and its log owe to the packets that have come in. -/
structure AnswerInv (env : Env) (has : List Chunk) (g : Received) (s : Peer) (log : PeerLog) : Prop where
  held : ∀ c ∈ s.downloads.hasChunkTable, HashVerified env has log.downloads c.hash
  offers : ∀ q h, s.downloads.Offers q h → HasOffered env g q h
  records : ListedPeers env → Slots (RecordsFrom (HasSent env g)) s.downloads
  uploads : Good (ServesAsked (HasAskedFor env g has log.downloads)) (SendsAsked env (HasAskedFor env g has log.downloads))
    s.uploads log.uploads
  sent : ∀ a ∈ log.downloads, Answers env g has log.downloads (.inr a)
  inRange : ∀ dst m, .sent dst m ∈ log.downloads → m.InRange

/-- What is known of the downloading side in any run. -/
structure Known (env : Env) (d : Downloads) : Prop where
  nodup : d.peers.Nodup
  newest : Slots Newest d
  peers : ListedPeers env → PeersValid d.connections

theorem track_lt {seq : Nat} (h : Slots Newest d) (hseq : seq < 2 ^ 32) (length : Nat) (now : Time) :
    (trackDataPacket p seq length now d).1 < 2 ^ 32 := by
  cases hfound : getDownloadIndexById p d with
  | none => rwa [trackDataPacket_none hfound]
  | some r =>
    obtain ⟨index, slot⟩ := r
    rw [trackDataPacket_eq hfound]
    rcases h index slot (getDownloadIndexById_get hfound) with hnil | ⟨root, hroot, hlt⟩
    · rw [hnil]
      exact hseq
    · obtain ⟨record, hrecord, hnumber⟩ := advanceRecords_one hroot seq length
      rw [hrecord, List.headD_cons, hnumber, advance]
      split_ifs
      · exact hseq
      · exact hlt

namespace AnswerInv

variable {has : List Chunk} {g g' : Received} {s : Peer} {log l : PeerLog} (h : AnswerInv env has g s log)

include h

theorem mono (hg : g ⊆ g') : AnswerInv env has g' s log := by
  have hlog : ∀ {P : DownloadLog → Prop}, P (log.downloads ++ []) → P log.downloads := fun hP => by
    rwa [List.append_nil] at hP
  refine ⟨h.held, fun q k hoffers => (h.offers q k hoffers).mono hg, fun hpeers i slot hi => ?_,
    asked_mono (fun p c hasked => hlog (P := fun log => HasAskedFor env g' has log p c) (hasked.mono hg [])) h.uploads,
    fun a ha => hlog (P := fun log => Answers env g' has log (.inr a)) ((h.sent a ha).mono hg []), h.inRange⟩
  obtain ⟨hfree, hsent⟩ := h.records hpeers i slot hi
  exact ⟨hfree, fun r hr => (hsent r hr).imp_right (HasSent.mono hg)⟩

theorem offers_step {ev : DownloadEvent} {d : Downloads} (hknown : Known env s.downloads) (hcomes : ComesFrom env g ev)
    {l : DownloadLog} (hs : (downloadMachine env).step ev s.downloads = .ok (d, l)) {q : Int} {k : Hash}
    (hoffers : d.Offers q k) : HasOffered env g q k := by
  have hafter := (Bittorrent.offers_step hknown.nodup hs).mp hoffers
  cases ev with
  | ihave src p packet clk =>
    obtain ⟨hmem, hkind, rfl⟩ := hcomes
    rcases hafter with ⟨rfl, hlisted⟩ | ⟨-, hold⟩
    · exact ⟨packet, ⟨hkind, src, hmem, rfl⟩, List.mem_append_right _ hlisted⟩
    · exact h.offers q k hold
  | crash clk rto => exact h.offers q k hafter.1
  | _ => exact h.offers q k hafter

theorem sends {ev : DownloadEvent} (hknown : Known env s.downloads) (hcomes : ComesFrom env g ev) {dst : Option Addr}
    {m : Message} (hsends : Sends env s.downloads ev dst m) :
    Answers env g has log.downloads (.inr (.sent dst m)) ∧ m.InRange := by
  cases hsends with
  | ihave hpos hlength hheld =>
    refine ⟨⟨_, _, hcomes.1, hcomes.2, rfl, fun k hk => ⟨(hheld k hk).1, ?_⟩⟩, hpos, hlength⟩
    obtain ⟨c, hc, rfl⟩ := findChunk_mem (hheld k hk).2
    exact h.held c hc
  | @get src p packet clk k hlisted =>
    obtain ⟨hmem, hkind, rfl⟩ := hcomes
    exact ⟨⟨_, ⟨packet, ⟨hkind, src, hmem, rfl⟩, List.mem_append_left _ hlisted⟩,
      Or.inr ⟨src, packet, hmem, rfl, rfl⟩⟩, trivial⟩
  | ack src p packet clk =>
    obtain ⟨hmem, hkind, rfl⟩ := hcomes
    refine ⟨⟨src, packet, hmem, hkind, rfl, fun hpeers => ?_⟩, track_lt hknown.newest (seqNumber_lt packet) _ _⟩
    have hsent : HasSent env g (peerIdFrom env src) packet.seqNumber := ⟨packet, ⟨hkind, src, hmem, rfl⟩, rfl⟩
    exact (RecordsFrom.track (h.records hpeers) (peerIdFrom_ne hpeers src) (Or.inr hsent) packet.dataLength (clk 0)).2
  | @next src p packet clk k hoffers =>
    obtain ⟨hmem, -, rfl⟩ := hcomes
    exact ⟨⟨_, h.offers _ k hoffers, Or.inr ⟨src, packet, hmem, rfl, rfl⟩⟩, trivial⟩
  | takeover hoffers => exact ⟨⟨_, h.offers _ _ hoffers, Or.inl rfl⟩, trivial⟩
  | whohas hpeer hother hpos hlength => exact ⟨⟨_, hpeer, hother, rfl⟩, hpos, hlength⟩

theorem download {ev : DownloadEvent} {d : Downloads} {down : DownloadLog} (hknown : Known env s.downloads)
    (hcomes : ComesFrom env g ev) (hs : (downloadMachine env).step ev s.downloads = .ok (d, down)) :
    AnswerInv env has g { s with downloads := d } (log ++ down.map .inr) := by
  have hdownloads : PeerLog.downloads (log ++ down.map .inr) = log.downloads ++ down := by
    rw [downloads_append, downloads_inr]
  have hsends : ∀ dst m, .sent dst m ∈ down → Answers env g has log.downloads (.inr (.sent dst m)) ∧ m.InRange :=
    fun dst m hmem => h.sends hknown hcomes (step_sends hknown.nodup hs hmem)
  have hself : g ⊆ g := fun _ hx => hx
  refine ⟨?_, fun q k hoffers => h.offers_step hknown hcomes hs hoffers, fun hpeers => ?_, ?_, fun a ha => ?_,
    fun dst m hmem => ?_⟩
  · rw [hdownloads]
    exact held_step h.held hs
  · refine RecordsFrom.step (h.records hpeers) (hknown.peers hpeers) ?_ ?_ hs
    · cases ev with
      | ihave src p packet clk =>
        obtain ⟨-, -, rfl⟩ := hcomes
        exact peerIdFrom_ne hpeers src
      | data src p packet clk =>
        obtain ⟨-, -, rfl⟩ := hcomes
        exact peerIdFrom_ne hpeers src
      | _ => trivial
    · rintro src p packet clk rfl
      obtain ⟨hmem, hkind, rfl⟩ := hcomes
      exact ⟨packet, ⟨hkind, src, hmem, rfl⟩, rfl⟩
  · rw [hdownloads, uploads_append, uploads_inr, List.append_nil]
    exact asked_mono (fun p c hasked => hasked.mono hself down) h.uploads
  · rw [hdownloads] at ha ⊢
    rcases List.mem_append.mp ha with ha | ha
    · exact (h.sent a ha).mono hself down
    · cases a with
      | sent dst m => exact (hsends dst m ha).1.mono hself down
      | _ => trivial
  · rw [hdownloads] at hmem
    rcases List.mem_append.mp hmem with hmem | hmem
    · exact h.inRange dst m hmem
    · exact (hsends dst m hmem).2

theorem upload {ev : UploadEvent} {u : Uploads} {up : UploadLog}
    (hget : ∀ p c clk, ev = .get p c clk → HasAskedFor env g has log.downloads p c)
    (hs : (uploadMachine env).step ev s.uploads = .ok (u, up)) :
    AnswerInv env has g { s with uploads := u } (log ++ up.map .inl) := by
  have hdownloads : PeerLog.downloads (log ++ up.map .inl) = log.downloads := by
    rw [downloads_append, downloads_inl, List.append_nil]
  refine ⟨?_, h.offers, h.records, ?_, ?_, ?_⟩
  · rw [hdownloads]
    exact h.held
  · rw [hdownloads, uploads_append, uploads_inl]
    exact asked_step h.uploads hget hs
  · rw [hdownloads]
    exact h.sent
  · rw [hdownloads]
    exact h.inRange

theorem answers {a : (Nat × StreamAction) ⊕ DownloadAction} (ha : a ∈ log) :
    Answers env g has log.downloads a ∧ ∀ m, saying a = some m → m.InRange := by
  cases a with
  | inl act =>
    have hmem : act ∈ PeerLog.uploads log := List.mem_filterMap.mpr ⟨_, ha, rfl⟩
    obtain ⟨pre, hsent⟩ := h.uploads.2.mem hmem
    obtain ⟨i, act⟩ := act
    cases act with
    | transmitted p seq bytes retransmit =>
      refine ⟨hsent, fun m hm => ?_⟩
      obtain ⟨c, n, -, hn, rfl, hlen, -⟩ := hsent
      cases hm
      refine ⟨?_, ?_⟩
      · simp only [maxPacketPerChunk] at hn
        omega
      · rw [hlen]
        exact dataSize_le n
    | _ => exact ⟨trivial, fun m hm => by cases hm⟩
  | inr act =>
    have hmem : act ∈ PeerLog.downloads log := List.mem_filterMap.mpr ⟨_, ha, rfl⟩
    refine ⟨h.sent act hmem, fun m hm => ?_⟩
    cases act with
    | sent dst m' =>
      cases hm
      exact h.inRange dst m hmem
    | _ => cases hm

end AnswerInv

/-! ## Runs of the peer -/

/-- What an event of a peer has received. -/
def PeerEvent.received : PeerEvent → Received
  | .packet src packet _ => [(src, packet)]
  | _ => []

/-- A peer with what it has received beside its state. -/
def hearMachine (env : Env) : Machine (Peer × Received) PeerEvent ((Nat × StreamAction) ⊕ DownloadAction) Fault :=
  (peerMachine env).observe fun g _ ev _ _ => g ++ ev.received

theorem AnswerInv.step {has : List Chunk} {g : Received} {s s' : Peer} {log l : PeerLog} {ev : PeerEvent}
    (h : AnswerInv env has g s log) (hknown : Known env s.downloads) (hs : (peerMachine env).step ev s = .ok (s', l)) :
    AnswerInv env has (g ++ ev.received) s' (log ++ l) := by
  have h := h.mono (List.subset_append_left g ev.received)
  have hdownload : ∀ ev', ComesFrom env (g ++ ev.received) ev' →
      s.download ((downloadMachine env).step ev' s.downloads) = .ok (s', l) →
        AnswerInv env has (g ++ ev.received) s' (log ++ l) := by
    intro ev' hcomes hr
    obtain ⟨d, down, hstep, rfl, rfl⟩ := download_ok hr
    exact h.download hknown hcomes hstep
  have hupload : ∀ ev', (∀ p c clk, ev' = .get p c clk → HasAskedFor env (g ++ ev.received) has log.downloads p c) →
      s.upload ((uploadMachine env).step ev' s.uploads) = .ok (s', l) →
        AnswerInv env has (g ++ ev.received) s' (log ++ l) := by
    intro ev' hget hr
    obtain ⟨u, up, hstep, rfl, rfl⟩ := upload_ok hr
    exact h.upload hget hstep
  cases ev with
  | packet src packet clk =>
    have hmem : (src, packet) ∈ g ++ PeerEvent.received (.packet src packet clk) :=
      List.mem_append_right g (List.mem_singleton.mpr rfl)
    have hs : processInboundUdp env src packet clk s = .ok (s', l) := hs
    unfold processInboundUdp at hs
    simp only at hs
    split_ifs at hs with _ hwhohas hihave hget hdata
    · exact hdownload (.whohas src packet) ⟨hmem, hwhohas⟩ hs
    · exact hdownload (.ihave src _ packet clk) ⟨hmem, hihave, rfl⟩ hs
    · unfold inboundGetPacket at hs
      simp only at hs
      split_ifs at hs with hfound
      · refine hupload (.get _ _ clk) (fun p c clk' heq => ?_) hs
        obtain ⟨rfl, rfl, -⟩ := UploadEvent.get.inj heq
        obtain ⟨c, hc, hhash⟩ := findChunk_mem hfound
        exact ⟨packet, ⟨hget, src, hmem, rfl⟩, hhash ▸ h.held c hc, rfl⟩
      · cases hs
        rwa [List.append_nil]
    · exact hdownload (.data src _ packet clk) ⟨hmem, hdata, rfl⟩ hs
    · exact hupload (.ack _ _ clk) (fun p c clk' heq => by cases heq) hs
    · exact hdownload (.denied _) trivial hs
    · cases hs
      rwa [List.append_nil]
  | line outf parsed => exact hdownload (.userGet outf parsed) trivial hs
  | send clk => exact hupload (.send clk) (fun p c clk' heq => by cases heq) hs
  | clean now => exact hupload (.clean now) (fun p c clk' heq => by cases heq) hs
  | crash clk => exact hdownload (.crash clk _) trivial hs
  | finish => exact hdownload .finish trivial hs

variable {max : Nat} {unset : Nat → UnsetSlot} {has : List Chunk} {files : String → Memory}

theorem known_reach {s : Peer} {log : PeerLog}
    (h : (peerMachine env).Reach (· = initPeer max unset has files) Machine.Any s log) : Known env s.downloads :=
  have hdown := downloads_reach h
  ⟨peers_nodup_reach hdown, newest_reach hdown, fun hpeers =>
    peersValid_reach (fun _ _ _ hok => hok) (hdown.mono fun _ _ _ hok => hok hpeers)⟩

theorem answerInv_reach {t : Peer × Received} {log : PeerLog}
    (h : (hearMachine env).Reach (· = (initPeer max unset has files, [])) Machine.Any t log) :
    AnswerInv env has t.2 t.1 log := by
  refine h.invariant (I := fun t log => AnswerInv env has t.2 t.1 log) (fun t ht => ?_)
    fun t log ev t' l hr hI _ hs => ?_
  · subst ht
    refine ⟨fun c hc => Or.inl ⟨c, hc, rfl⟩, fun q k hoffers => absurd hoffers Bool.false_ne_true,
      fun _ i slot hi => ?_, good_initUploads fun slot hfree _ _ hid => absurd hfree hid,
      fun a ha => absurd ha List.not_mem_nil, fun dst m hmem => absurd hmem List.not_mem_nil⟩
    rw [List.eq_of_mem_replicate (List.mem_of_getElem? hi)]
    exact ⟨fun _ => rfl, fun r hr => absurd hr List.not_mem_nil⟩
  · obtain ⟨hs, hhistory⟩ := Machine.observe_step.mp hs
    have hreach : (peerMachine env).Reach (· = initPeer max unset has files) Machine.Any t.1 log :=
      hr.forget (fun t ht => (congrArg Prod.fst ht : t.1 = initPeer max unset has files)) fun _ _ _ _ => trivial
    rw [hhistory]
    exact hI.step (known_reach hreach) hs

/-! ## Runs of the program -/

/-- What an iteration of the program has received. -/
def Input.received (input : Input) : Received :=
  (input.datagram.map fun (src, stack, datagram, _) => (src, receiveInto stack (datagram.take buflen))).toList

def hearProgram (env : Env) : Machine (Program × Received) Input ((Nat × StreamAction) ⊕ DownloadAction) Fault :=
  (programMachine env).observe fun g _ input _ _ => g ++ input.received

theorem events_received (it : Iteration) (g : Received) : it.events.foldl (fun g ev => g ++ ev.received) g =
    g ++ (it.packet.map fun packet => (packet.1, packet.2.1)).toList := by
  have hlines : ∀ (line : String × Option (List (Int × Hash)) → PeerEvent), (∀ get, (line get).received = []) →
      ∀ (gets : List (String × Option (List (Int × Hash)))) (g : Received),
        (gets.map line).foldl (fun g ev => g ++ ev.received) g = g := by
    intro line hline gets
    induction gets with
    | nil => exact fun _ => rfl
    | cons get gets ih =>
      intro g
      rw [List.map_cons, List.foldl_cons, ih, hline, List.append_nil]
  rw [Iteration.events, List.foldl_append, List.foldl_append, hlines _ fun _ => rfl]
  cases it.packet with
  | none => simp [PeerEvent.received]
  | some packet => simp [PeerEvent.received]

/-- A run of the program is one of the peer that has received the same. -/
theorem hearProgram_reach {t : Program × Received} {log : PeerLog}
    (h : (hearProgram env).Reach (· = (initProgram max unset has files, [])) Machine.Any t log) :
    (hearMachine env).Reach (· = (initPeer max unset has files, [])) Machine.Any (t.1.peer, t.2) log := by
  induction h with
  | start ht =>
    subst ht
    exact .start rfl
  | @step t t' log l input _ _ hs ih =>
    obtain ⟨hs, hhistory⟩ := Machine.observe_step.mp hs
    obtain ⟨it, hit, -, hpacket⟩ := iterate_events hs
    have hrun := Machine.observe_run (k := fun g (ev : PeerEvent) => g ++ ev.received) t.2 hit
    have hreceived : it.events.foldl (fun g ev => g ++ ev.received) t.2 = t'.2 := by
      rw [events_received, hpacket, hhistory, Option.map_map]
      rfl
    rw [hreceived] at hrun
    exact ih.runAny _ hrun

/-- In every run of a program, on any datagrams: what it sends, but for the WHOHAS packets of its user's requests,
answers a packet that it has received. It offers and sends only chunks that were in its file at the start or that
it has verified, asks a peer only for chunks that this peer has offered, and acknowledges to a peer only what this
peer has sent; and every message is one that `make_packet` has room for. -/
theorem program_answers {t : Program × Received} {log : PeerLog}
    (h : (hearProgram env).Reach (· = (initProgram max unset has files, [])) Machine.Any t log) :
    ∀ a ∈ log, Answers env t.2 has log.downloads a ∧ ∀ m, saying a = some m → m.InRange :=
  fun _ ha => (answerInv_reach (hearProgram_reach h)).answers ha

set_option maxRecDepth 20000 in
/-- The answer to a WHOHAS lists what was asked for and is there. -/
theorem program_answers_whohas : ∃ t : Program × Received, t.2.length = 1 ∧
    Answers sampleEnv t.2 [requestEntry (0, sampleHash 0)] [.sent (some sampleSrc) (.ihave [sampleHash 0])]
      (.inr (.sent (some sampleSrc) (.ihave [sampleHash 0]))) := by
  have hstart : (hearProgram sampleEnv).Reach
      (· = (initProgram 1 (fun _ => unsetZero) [requestEntry (0, sampleHash 0)] fun _ _ => 0, [])) Machine.Any
      (initProgram 1 (fun _ => unsetZero) [requestEntry (0, sampleHash 0)] fun _ _ => 0, []) [] := .start rfl
  have hread := hstart.step (e := { idleInput with
    datagram := some (sampleSrc, fun _ => 0, (Message.whohas [sampleHash 0]).datagram, fun _ => 0) }) trivial rfl
  exact ⟨_, rfl, (program_answers hread (.inr (.sent (some sampleSrc) (.ihave [sampleHash 0])))
    (List.mem_singleton.mpr rfl)).1⟩

end Bittorrent
