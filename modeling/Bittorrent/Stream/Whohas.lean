import Bittorrent.Lib.Cut
import Bittorrent.Stream.Wire

/-!
# The WHOHAS packets of a request

The hashes of the NOT_STARTED chunks are cut into parts of 74, and each part is a packet that is read
back by its count byte (`whohas_packets`). The loop that counts them has an `unsigned char` index, which
passes the last of 255 chunks but never that of more (`whohas_flooding_ends_iff`).

The counting loop and the filling loops are proved apart. The first counts with an index that wraps at 256,
so it is `List.countP` of the table when the table has at most 255 entries, and runs for ever on a longer
one (`countUnfinished_eq`). The filling loop goes over the table once for all packets together:
`nextUnfinished` takes the next hashes and leaves the rest, so the packets are a cut of the list
(`makeWhohas_cut`), whose general facts are those of `Cut`. The packets read back are `receive_hashes`, one
by one.
-/

namespace Bittorrent

variable {request : Request} {packets : List Message} {chunks : List Chunk} {hashes : List Hash}
  {m : Message}

/-- The hashes of the chunks nobody was asked for, in table order. -/
def unfinishedHashes (chunks : List Chunk) : List Hash :=
  (chunks.filter fun c => c.state = .notStarted).map (·.hash)

theorem unfinishedHashes_cons_pos {chunk : Chunk} (h : chunk.state = .notStarted) (chunks : List Chunk) :
    unfinishedHashes (chunk :: chunks) = chunk.hash :: unfinishedHashes chunks := by
  rw [unfinishedHashes, List.filter_cons_of_pos (by simpa using h)]
  rfl

theorem unfinishedHashes_cons_neg {chunk : Chunk} (h : chunk.state ≠ .notStarted) (chunks : List Chunk) :
    unfinishedHashes (chunk :: chunks) = unfinishedHashes chunks := by
  rw [unfinishedHashes, List.filter_cons_of_neg (by simpa using h)]
  rfl

/-! ## The counting loop -/

theorem countUnfinished_ok (h : chunks.length ≤ 255) : ∀ (fuel i count : Nat), i ≤ chunks.length →
    chunks.length < i + fuel → countUnfinished chunks fuel i count =
      .ok (count + (unfinishedHashes (chunks.drop i)).length) := by
  intro fuel
  induction fuel with
  | zero => intro i count hi hfuel; omega
  | succ fuel ih =>
    intro i count hi hfuel
    rw [countUnfinished]
    by_cases hlast : i = chunks.length
    · rw [List.getElem?_eq_none (by omega), List.drop_eq_nil_of_le (by omega)]
      rfl
    · have hlt : i < chunks.length := by omega
      rw [List.getElem?_eq_getElem hlt, List.drop_eq_getElem_cons hlt]
      simp only
      rw [show (i + 1) % 2 ^ 8 = i + 1 from Nat.mod_eq_of_lt (by omega), ih _ _ (by omega) (by omega)]
      by_cases hstate : chunks[i].state = .notStarted
      · rw [if_pos hstate, unfinishedHashes_cons_pos hstate, List.length_cons]
        congr 1
        omega
      · rw [if_neg hstate, unfinishedHashes_cons_neg hstate]

theorem countUnfinished_diverge (h : 255 < chunks.length) : ∀ (fuel i count : Nat), i < 256 →
    countUnfinished chunks fuel i count = .error .diverge := by
  intro fuel
  induction fuel with
  | zero => exact fun _ _ _ => rfl
  | succ fuel ih =>
    intro i count hi
    rw [countUnfinished, List.getElem?_eq_getElem (by omega)]
    exact ih _ _ (Nat.mod_lt _ (by decide))

theorem countUnfinished_eq (chunks : List Chunk) : countUnfinished chunks (2 ^ 8 + 1) 0 0 =
    if chunks.length ≤ 255 then .ok (unfinishedHashes chunks).length else .error .diverge := by
  split_ifs with h
  · rw [countUnfinished_ok h _ _ _ (Nat.zero_le _) (by omega), Nat.zero_add, List.drop_zero]
  · exact countUnfinished_diverge (by omega) _ _ _ (by decide)

/-! ## The filling loops -/

theorem nextUnfinished_eq (count : Nat) (chunks : List Chunk) :
    (nextUnfinished count chunks).1 = (unfinishedHashes chunks).take count ∧
      unfinishedHashes (nextUnfinished count chunks).2 = (unfinishedHashes chunks).drop count := by
  fun_induction nextUnfinished count chunks with
  | case1 chunks => exact ⟨rfl, rfl⟩
  | case2 count => exact ⟨rfl, rfl⟩
  | case3 count chunk chunks hstate hashes rest hnext ih =>
    rw [hnext] at ih
    rw [unfinishedHashes_cons_pos hstate, List.take_succ_cons, List.drop_succ_cons]
    exact ⟨congrArg _ ih.1, ih.2⟩
  | case4 count chunk chunks hstate ih =>
    rw [unfinishedHashes_cons_neg hstate]
    exact ih

theorem fillWhohas_cut (count left : Nat) (chunks : List Chunk)
    (hleft : left = (unfinishedHashes chunks).length) (hle : left ≤ count * chunkPerPacket)
    (hlt : count * chunkPerPacket < left + chunkPerPacket) :
    ∃ parts, fillWhohas count left chunks = parts.map Message.whohas ∧
      Cut chunkPerPacket (unfinishedHashes chunks) parts := by
  induction count generalizing left chunks with
  | zero =>
    have hnil : unfinishedHashes chunks = [] := List.length_eq_zero_iff.mp (by omega)
    exact ⟨[], rfl, hnil ▸ .nil⟩
  | succ count ih =>
    rw [Nat.succ_mul] at hle hlt
    rw [fillWhohas]
    by_cases hlast : count = 0
    · subst hlast
      obtain ⟨hnext, -⟩ := nextUnfinished_eq left chunks
      rw [List.take_of_length_le (by omega)] at hnext
      exact ⟨[unfinishedHashes chunks], by simp [fillWhohas, hnext], .last (by omega) (by omega)⟩
    · obtain ⟨hnext, hrest⟩ := nextUnfinished_eq chunkPerPacket chunks
      have hmore : chunkPerPacket ≤ count * chunkPerPacket := Nat.le_mul_of_pos_left _ (by omega)
      obtain ⟨parts, hparts, hcut⟩ := ih (left - chunkPerPacket)
        (nextUnfinished chunkPerPacket chunks).2 (by rw [hrest, List.length_drop, hleft]) (by omega) (by omega)
      rw [hrest] at hcut
      refine ⟨(unfinishedHashes chunks).take chunkPerPacket :: parts, ?_,
        .cons (by decide) (by omega) hcut⟩
      simp only [if_neg hlast, hnext, hparts, List.map_cons]

theorem makeWhohas_cut (h : makeWhohas request = .ok packets) : ∃ parts,
    packets = parts.map Message.whohas ∧ Cut chunkPerPacket (unfinishedHashes request.chunks) parts := by
  rw [makeWhohas, countUnfinished_eq] at h
  split_ifs at h
  · simp only [Except.ok.injEq] at h
    subst h
    refine fillWhohas_cut _ _ _ rfl ?_ ?_
    · split_ifs <;> simp only [chunkPerPacket] at * <;> omega
    · split_ifs <;> simp only [chunkPerPacket] at * <;> omega

theorem makeWhohas_length (h : makeWhohas request = .ok packets)
    (hm : Message.whohas hashes ∈ packets) : hashes.length ≤ chunkPerPacket := by
  obtain ⟨parts, rfl, hcut⟩ := makeWhohas_cut h
  obtain ⟨part, hpart, he⟩ := List.mem_map.mp hm
  cases he
  exact (hcut.bounds _ hpart).2

/-! ## The packets read back -/

/-- The hashes of a received packet, as many as its count byte says. -/
def Incoming.listed (packet : Incoming) : List Hash := (List.range packet.chunkCount).map packet.hashAt

theorem receive_listed {stale : Memory} (hm : m.Lists hashes) (h : hashes.length ≤ chunkPerPacket) :
    (receiveInto stale m.datagram).listed = hashes := by
  rw [Incoming.listed, receive_chunkCount stale hm h, receive_hashes stale hm h]

/-- A packet has from one to 74 hashes, and is as long as they take. -/
structure WellPacked (packet : Incoming) : Prop where
  pos : 1 ≤ packet.chunkCount
  le : packet.chunkCount ≤ chunkPerPacket
  length : packet.packetLength = 20 + 20 * packet.chunkCount
  fits : packet.packetLength ≤ 1500

theorem receive_wellPacked {stale : Memory} (hm : m.Lists hashes) (hpos : 1 ≤ hashes.length)
    (h : hashes.length ≤ chunkPerPacket) : WellPacked (receiveInto stale m.datagram) := by
  have hcount := receive_chunkCount stale hm h
  have hlength : (receiveInto stale m.datagram).packetLength = 20 + 20 * hashes.length := by
    rw [receive_packetLength m stale (hm.packetLength_lt h), hm.packetLength]
    simp only [hashPacketLength, sha1HashSize, headerLength, chunkNumberAndPaddingSize]
    omega
  refine ⟨hcount ▸ hpos, hcount ▸ h, hcount ▸ hlength, ?_⟩
  simp only [chunkPerPacket] at h
  omega

/-- For every request on which `make_packet(WHOHAS, ...)` returns, `n` chunks being NOT_STARTED: there
are `n / 74` packets, rounded up; read back by their count bytes they list the hashes of those chunks in
table order; each is well packed, and only the last has fewer than 74 hashes. -/
theorem whohas_packets (h : makeWhohas request = .ok packets) (stale : Message → Memory) :
    packets.length = ((unfinishedHashes request.chunks).length + (chunkPerPacket - 1)) / chunkPerPacket ∧
      (packets.flatMap fun m => (receiveInto (stale m) m.datagram).listed) =
        unfinishedHashes request.chunks ∧
      (∀ m ∈ packets, WellPacked (receiveInto (stale m) m.datagram)) ∧
      ∀ j m, packets[j]? = some m → (receiveInto (stale m) m.datagram).chunkCount < chunkPerPacket →
        j + 1 = packets.length := by
  obtain ⟨parts, rfl, hcut⟩ := makeWhohas_cut h
  refine ⟨by rw [List.length_map, hcut.length (by decide)], ?_, fun m hm => ?_, fun j m hj hshort => ?_⟩
  · have hread : ∀ part ∈ parts, (receiveInto (stale (.whohas part))
        (Message.whohas part).datagram).listed = part := fun part hpart =>
      receive_listed (Or.inl rfl) (hcut.bounds part hpart).2
    rw [List.flatMap_map, ← hcut.flatten, List.flatMap_def, List.map_congr_left hread, List.map_id']
  · obtain ⟨part, hpart, rfl⟩ := List.mem_map.mp hm
    obtain ⟨hpos, hle⟩ := hcut.bounds part hpart
    exact receive_wellPacked (Or.inl rfl) hpos hle
  · obtain ⟨part, hpart, rfl⟩ := Option.map_eq_some_iff.mp ((List.getElem?_map ..).symm.trans hj)
    have hle := (hcut.bounds part (List.mem_of_getElem? hpart)).2
    rw [receive_chunkCount _ (Or.inl rfl) hle] at hshort
    rw [List.length_map]
    exact hcut.full j part hpart hshort

/-- Of 76 chunks one is OWNED: a full packet and one with the last hash. -/
theorem whohas_packets_two : ∃ (request : Request) (packets : List Message), makeWhohas request = .ok packets ∧
    packets.length = 2 ∧ (packets.flatMap fun m => (receiveInto (fun _ => 0) m.datagram).listed) =
      (List.range 75).map fun i => sampleHash (UInt8.ofNat i) := by
  obtain ⟨packets, hpackets⟩ : ∃ packets, makeWhohas ⟨none, { requestEntry (75, sampleHash 75) with state := .owned } ::
      (List.range 75).map fun (i : Nat) => requestEntry ((i : Int), sampleHash (UInt8.ofNat i))⟩ = .ok packets :=
    ⟨_, rfl⟩
  obtain ⟨hcount, hread, -, -⟩ := whohas_packets hpackets fun _ _ => 0
  exact ⟨_, packets, hpackets, hcount.trans (by decide), hread.trans (by decide)⟩

/-! ## Where the counting loop ends -/

theorem printLoop_ok {length : Nat} (h : length + 20 ≤ 2 ^ 16) :
    ∀ fuel i, length ≤ i + 20 * fuel → printLoop length (fuel + 1) i = .ok () := by
  intro fuel
  induction fuel with
  | zero =>
    intro i hi
    rw [printLoop, if_neg (by omega)]
  | succ fuel ih =>
    intro i hi
    rw [printLoop]
    split_ifs with hlt
    · rw [Nat.mod_eq_of_lt (by omega)]
      exact ih (i + 20) (by omega)
    · rfl

theorem printPacket_ok (h : makeWhohas request = .ok packets) (hm : m ∈ packets) :
    printPacket (makePacket m) = .ok () := by
  obtain ⟨parts, rfl, hcut⟩ := makeWhohas_cut h
  obtain ⟨part, hpart, rfl⟩ := List.mem_map.mp hm
  have hle := (hcut.bounds part hpart).2
  have hlength : hashPacketLength part.length ≤ 1500 := by
    simp only [hashPacketLength, sha1HashSize, headerLength, chunkNumberAndPaddingSize,
      chunkPerPacket] at hle ⊢
    omega
  have hfield : ntohs (fun k => (makePacket (.whohas part)).header.getD k 0) 6 =
      hashPacketLength part.length % 2 ^ 16 := ntohs_eq rfl rfl
  rw [printPacket]
  dsimp only
  split_ifs
  · rfl
  · exact printLoop_ok (by omega) (2 ^ 16) 4 (by omega)

/-- `whohas_flooding` ends, for the request of a chunk file, exactly if the file has at most 255 chunks;
with more, the counting loop does not end however long it runs. -/
theorem whohas_flooding_ends_iff (env : Env) (outf : String) (lines : List (Int × Hash)) :
    ((∃ sent, whohasFlooding env ⟨some outf, lines.map requestEntry⟩ = .ok sent) ↔
      lines.length ≤ 255) ∧
    ((∃ fuel count, countUnfinished (lines.map requestEntry) fuel 0 0 = .ok count) ↔
      lines.length ≤ 255) ∧
    ∀ packets, makeWhohas ⟨some outf, lines.map requestEntry⟩ = .ok packets → ∀ m ∈ packets,
      printPacket (makePacket m) = .ok () := by
  have hlength : (lines.map requestEntry).length = lines.length := List.length_map ..
  refine ⟨?_, ⟨?_, fun hle =>
    ⟨2 ^ 8 + 1, (unfinishedHashes (lines.map requestEntry)).length, ?_⟩⟩, fun packets h m hm => printPacket_ok h hm⟩
  · rw [whohasFlooding, makeWhohas, countUnfinished_eq, hlength]
    split_ifs with hle
    · exact iff_of_true ⟨_, rfl⟩ hle
    · refine iff_of_false (fun hsome => ?_) hle
      obtain ⟨sent, hsent⟩ := hsome
      cases hsent
  · rintro ⟨fuel, count, hcount⟩
    by_contra hlt
    rw [countUnfinished_diverge (by omega) _ _ _ (by decide)] at hcount
    cases hcount
  · rw [countUnfinished_eq, hlength, if_pos hle]

/-- A request for 256 chunks: the counting loop never ends. -/
theorem whohas_flooding_hangs : ∃ lines : List (Int × Hash), lines.length = 256 ∧
    whohasFlooding sampleEnv ⟨some "out", lines.map requestEntry⟩ = .error .diverge ∧
    ∀ fuel, countUnfinished (lines.map requestEntry) fuel 0 0 = .error .diverge := by
  have hlt : 255 < ((List.replicate 256 (0, sampleHash 0)).map requestEntry).length := by
    rw [List.length_map, List.length_replicate]
    decide
  refine ⟨List.replicate 256 (0, sampleHash 0), List.length_replicate .., ?_, fun fuel => ?_⟩
  · rw [whohasFlooding, makeWhohas, countUnfinished_diverge hlt _ _ _ (by decide)]
  · exact countUnfinished_diverge hlt _ _ _ (by decide)

end Bittorrent
