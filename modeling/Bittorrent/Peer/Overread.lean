import Bittorrent.Peer.Datagram
import Bittorrent.Peer.Fetching
import Mathlib.Data.List.Perm.Subperm

/-!
# Packets read past their datagram

For every datagram that is not whole there are a reachable peer and two buffers, both beginning with
the datagram, of which the peer makes different things: for a datagram without a header a DENIED and
an IHAVE packet, for the others two packets that differ in one byte behind it.

The proof is one distinguishing peer for each kind of missing byte. Put another value behind the datagram
(`Incoming.put`): if the handling depends only on the bytes received, the peer does the same with both
packets. For each type there is a reachable peer that does not. It has the hash or it has not, it has asked
for it or has not, its upload is told one number or the next, its stream takes the packet for the next or
for an old one (`DependsOn.whohas`, `DependsOn.ihave_count`, `DependsOn.get`, `DependsOn.ack`,
`DependsOn.data_header`, `DependsOn.data_payload`). So a missing byte contradicts `DependsOn`, and
`DependsOn.whole` adds up the types; a datagram without a header comes first, since it may be of any type.
-/

namespace Bittorrent

variable {env : Env} {n : Nat} {p p' p₁ p₂ : Incoming} {s : Peer}

/-- What a peer makes of the packet depends only on its first `n` bytes, in every state it can reach. -/
def DependsOn (n : Nat) (packet : Incoming) : Prop :=
  ∀ (env : Env) (max : Nat) (unset : Nat → UnsetSlot) (has : List Chunk) (files : String → Memory)
    (s : Peer) (log : PeerLog),
    (peerMachine env).Reach (· = initPeer max unset has files) Machine.Any s log →
    ∀ (src : Addr) (packet' : Incoming) (clk : Clock), SameBytes n packet packet' →
      processInboundUdp env src packet' clk s = processInboundUdp env src packet clk s

theorem Whole.dependsOn (h : Whole n p) : DependsOn n p :=
  fun _ _ _ _ _ _ _ _ _ _ _ hsame => (inbound_same hsame h).symm

theorem DependsOn.two {max : Nat} {unset : Nat → UnsetSlot} {has : List Chunk} {files : String → Memory}
    {log : PeerLog} (h : DependsOn n p)
    (hr : (peerMachine env).Reach (· = initPeer max unset has files) Machine.Any s log)
    (h₁ : SameBytes n p p₁) (h₂ : SameBytes n p p₂) (src : Addr) (clk : Clock) :
    processInboundUdp env src p₁ clk s = processInboundUdp env src p₂ clk s :=
  (h env max unset has files s log hr src p₁ clk h₁).trans
    (h env max unset has files s log hr src p₂ clk h₂).symm

/-! ## One byte behind the datagram -/

/-- The packet with another byte `k`. -/
def Incoming.put (packet : Incoming) (k : Nat) (b : UInt8) : Incoming :=
  ⟨Function.update packet.buf k b⟩

@[simp] theorem put_self (packet : Incoming) (k : Nat) (b : UInt8) : (packet.put k b).buf k = b :=
  Function.update_self ..

theorem put_ne {k j : Nat} (packet : Incoming) (b : UInt8) (h : j ≠ k) :
    (packet.put k b).buf j = packet.buf j := Function.update_of_ne h ..

theorem sameBytes_put {k : Nat} (packet : Incoming) (b : UInt8) (h : n ≤ k) :
    SameBytes n packet (packet.put k b) := fun j hj => (put_ne packet b (by omega)).symm

theorem readHash_put {k off : Nat} (packet : Incoming) (b : UInt8) (h : off + sha1HashSize ≤ k) :
    readHash (packet.put k b).buf off = readHash packet.buf off :=
  ((sameBytes_put packet b (Nat.le_refl k)).readHash h).symm

theorem readHash_last (m : Memory) (off : Nat) : (readHash m off).val[19]? = some (m (off + 19)) := by
  simp [readHash, readBytes, sha1HashSize]

theorem readHash_put_last (packet : Incoming) (off : Nat) (b : UInt8) :
    (readHash (packet.put (off + 19) b).buf off).val[19]? = some b := by
  rw [readHash_last, put_self]

theorem ntohs_put (packet : Incoming) (off : Nat) (b : UInt8) :
    ntohs (packet.put (off + 1) b).buf off = (packet.buf off).toNat * 2 ^ 8 + b.toNat := by
  rw [ntohs, put_self, put_ne packet b (by omega)]

theorem ntohl_put (packet : Incoming) (off : Nat) (b : UInt8) : ntohl (packet.put (off + 3) b).buf off =
    ntohs packet.buf off * 2 ^ 16 + ((packet.buf (off + 2)).toNat * 2 ^ 8 + b.toNat) := by
  rw [ntohl, ntohs_put packet (off + 2), ← (sameBytes_put packet b (Nat.le_refl _)).ntohs (by omega)]

theorem byte_ne_succ (b : UInt8) : b ≠ b + 1 := by
  intro h
  have hnat := congrArg UInt8.toNat h
  rw [UInt8.toNat_add] at hnat
  change b.toNat = (b.toNat + 1) % 2 ^ 8 at hnat
  omega

theorem readHash_put_succ (packet : Incoming) (off : Nat) :
    readHash (packet.put (off + 19) (packet.buf (off + 19) + 1)).buf off ≠ readHash packet.buf off := by
  intro h
  have hbyte := congrArg (·.val[19]?) h
  rw [readHash_put_last, readHash_last] at hbyte
  exact byte_ne_succ _ (Option.some.inj hbyte).symm

theorem exists_byte (bytes : List UInt8) (h : bytes.length < 256) : ∃ b, b ∉ bytes := by
  by_contra hall
  simp only [not_exists, Decidable.not_not] at hall
  have hsub : List.range 256 ⊆ bytes.map (·.toNat) := fun k hk => by
    have hk := List.mem_range.mp hk
    refine List.mem_map.mpr ⟨UInt8.ofNat k, hall _, ?_⟩
    rw [UInt8.toNat_ofNat', Nat.mod_eq_of_lt hk]
  have hle := (List.subperm_of_subset List.nodup_range hsub).length_le
  rw [List.length_range, List.length_map] at hle
  omega

/-- When a count or a hash is missing, some hash is or is not in the packet with what lies behind. -/
theorem offers_differ (h : ¬ (17 ≤ n ∧ HashesReceived n p.chunkCount)) : ∃ p₁ p₂ hash,
    SameBytes n p p₁ ∧ SameBytes n p p₂ ∧ packetContainChunk p₁ hash = true ∧
      packetContainChunk p₂ hash = false := by
  have hslot : ∀ {q : Incoming} {hash}, packetContainChunk q hash = true ↔
      ∃ i < q.chunkCount, hash = q.hashAt i := fun {q hash} => by
    simp [packetContainChunk]
  by_cases hn : 17 ≤ n
  · have hcount : p.chunkCount ≠ 0 ∧ n < 20 + 20 * p.chunkCount := by
      simp only [HashesReceived] at h
      omega
    obtain ⟨c, hc⟩ := Nat.exists_eq_succ_of_ne_zero hcount.1
    have hlt : p.chunkCount < 256 := (p.buf 16).toNat_lt
    have hlast : n ≤ 20 + 20 * c + 19 := by omega
    obtain ⟨b, hb⟩ := exists_byte ((List.range c).map fun i => p.buf (20 + 20 * i + 19)) (by
      rw [List.length_map, List.length_range]
      omega)
    have hcount' : ∀ b, (p.put (20 + 20 * c + 19) b).chunkCount = c + 1 := fun b =>
      ((sameBytes_put p b hlast).chunkCount hn).symm.trans hc
    refine ⟨p.put (20 + 20 * c + 19) b, p.put (20 + 20 * c + 19) (b + 1),
      (p.put (20 + 20 * c + 19) b).hashAt c, sameBytes_put p b hlast, sameBytes_put p _ hlast,
      hslot.mpr ⟨c, by rw [hcount']; omega, rfl⟩, ?_⟩
    rw [Bool.eq_false_iff]
    intro hcontains
    obtain ⟨i, hi, heq⟩ := hslot.mp hcontains
    rw [hcount'] at hi
    have hbyte := congrArg (·.val[19]?) heq
    dsimp only [Incoming.hashAt] at hbyte
    rw [readHash_put_last] at hbyte
    by_cases hic : i = c
    · subst hic
      rw [readHash_put_last] at hbyte
      exact byte_ne_succ b (Option.some.inj hbyte)
    · rw [readHash_put p (b + 1) (by simp only [sha1HashSize]; omega), readHash_last] at hbyte
      exact hb (List.mem_map.mpr ⟨i, List.mem_range.mpr (by omega), (Option.some.inj hbyte).symm⟩)
  · refine ⟨p.put 16 1, p.put 16 0, (p.put 16 1).hashAt 0, sameBytes_put p 1 (by omega),
      sameBytes_put p 0 (by omega), hslot.mpr ⟨0, ?_, rfl⟩, ?_⟩
    · rw [Incoming.chunkCount, put_self]
      decide
    · rw [packetContainChunk, Incoming.chunkCount, put_self]
      rfl

/-! ## The cases of `process_inbound_udp` -/

/-- The packet passes `validate_packet` and has this type. -/
def OfType (t : Nat) (packet : Incoming) : Prop :=
  validatePacket packet.magicNumber packet.versionNumber packet.packetType = true ∧
    packet.packetType = t

theorem ofType_message (m : Message) (stale : Memory) (h : m.packetLength < 2 ^ 16) :
    OfType m.packetType (receiveInto stale m.datagram) :=
  ⟨receive_valid m stale h, receive_packetType m stale h⟩

theorem OfType.congr {t : Nat} (h : OfType t p) (hsame : SameBytes n p p') (hn : 4 ≤ n) : OfType t p' :=
  ⟨hsame.valid hn ▸ h.1, hsame.packetType hn ▸ h.2⟩

section

variable {src : Addr} {clk : Clock}

theorem processInboundUdp_whohas (h : OfType PacketType.whohas p) :
    processInboundUdp env src p clk s = s.download (inboundWhohas src p s.downloads) := by
  rw [processInboundUdp, if_pos h.1, h.2]
  rfl

theorem processInboundUdp_ihave (h : OfType PacketType.ihave p) :
    processInboundUdp env src p clk s =
      s.download (inboundIhave src (peerIdFrom env src) p clk s.downloads) := by
  rw [processInboundUdp, if_pos h.1, h.2]
  rfl

theorem processInboundUdp_get (h : OfType PacketType.get p) :
    processInboundUdp env src p clk s = inboundGetPacket env (peerIdFrom env src) p clk s := by
  rw [processInboundUdp, if_pos h.1, h.2]
  rfl

theorem processInboundUdp_dataPacket (h : OfType PacketType.data p) :
    processInboundUdp env src p clk s =
      s.download (inboundData env src (peerIdFrom env src) p clk s.downloads) := by
  rw [processInboundUdp, if_pos h.1, h.2]
  rfl

theorem processInboundUdp_ackPacket (h : OfType PacketType.ack p) :
    processInboundUdp env src p clk s =
      s.upload (inboundAck env (peerIdFrom env src) p.ackNumber clk s.uploads) := by
  rw [processInboundUdp, if_pos h.1, h.2]
  rfl

theorem processInboundUdp_denied (h : OfType PacketType.denied p) :
    processInboundUdp env src p clk s =
      s.download (.ok (inboundDenied (peerIdFrom env src) s.downloads, [])) := by
  rw [processInboundUdp, if_pos h.1, h.2]
  rfl

end

/-- The peers of this section start with a table of one chunk, or of none. -/
def peerWith (has : List Chunk) : Peer := initPeer 1 (fun _ => unsetZero) has fun _ _ => 0

theorem peerWith_reach (has : List Chunk) : (peerMachine sampleEnv).Reach
    (· = initPeer 1 (fun _ => unsetZero) has fun _ _ => 0) Machine.Any (peerWith has) [] := .start rfl

/-- The packet that begins with the received bytes and goes on with others. -/
def Incoming.over (packet : Incoming) (n : Nat) (stale : Memory) : Incoming :=
  ⟨fun k => if k < n then packet.buf k else stale k⟩

theorem sameBytes_over (packet : Incoming) (n : Nat) (stale : Memory) :
    SameBytes n packet (packet.over n stale) := fun _ hk => (if_pos hk).symm

/-- The header bytes of a packet of type `t`. -/
def headerOf (t : UInt8) : Memory := fun k => [0x3C, 0x51, 1, t].getD k 0

theorem ofType_over {t : UInt8} (hn : n < 4) (ht : t.toNat ≤ 5) (h : ¬ Rejected n p) :
    OfType t.toNat (p.over n (headerOf t)) := by
  refine ⟨valid_iff.mpr fun k hk => ?_, ?_⟩
  · rw [Incoming.over]
    dsimp only
    split_ifs with hkn
    · exact not_not.mp fun hbad => h ⟨k, hkn, hbad⟩
    · match k, hk with
      | 0, _ => rfl
      | 1, _ => rfl
      | 2, _ => rfl
      | 3, _ => exact ht
  · rw [Incoming.packetType, Incoming.over]
    dsimp only
    rw [if_neg (by omega)]
    rfl

theorem DependsOn.header (h : DependsOn n p) (hrejected : ¬ Rejected n p) : 4 ≤ n := by
  by_contra hn
  have hdenied := ofType_over (t := 5) (by omega) (by decide) hrejected
  have hihave := ofType_over (t := 1) (by omega) (by decide) hrejected
  have hsame := h.two (peerWith_reach []) (sameBytes_over p n (headerOf 5))
    (sameBytes_over p n (headerOf 1)) sampleSrc fun _ => 0
  have hlength : (p.over n (headerOf 1)).packetLength = 0 := by
    rw [Incoming.packetLength, ntohs, Incoming.over]
    dsimp only
    rw [if_neg (by omega), if_neg (by omega)]
    rfl
  have hprint : printIncomingPacket (p.over n (headerOf 1)) = .ok () := by
    rw [printIncomingPacket, hlength, printLoop_ok (by omega) (2 ^ 16) 20 (by omega), ite_self]
  rw [processInboundUdp_denied hdenied, processInboundUdp_ihave hihave, inboundIhave, hprint] at hsame
  have hconnections : some 0 = some 1 :=
    congrArg (fun r => r.toOption.map fun r => r.1.downloads.connections.length) hsame
  cases hconnections

/-! ## WHOHAS and IHAVE -/

theorem mem_hashes_iff {hash : Hash} :
    hash ∈ (List.range p.chunkCount).map p.hashAt ↔ packetContainChunk p hash = true := by
  simp only [packetContainChunk, List.any_eq_true, List.mem_map, decide_eq_true_eq, @eq_comm _ hash]

theorem DependsOn.whohas (h : DependsOn n p) (hn : 4 ≤ n) (ht : OfType PacketType.whohas p) :
    17 ≤ n ∧ HashesReceived n p.chunkCount := by
  by_contra hmissing
  obtain ⟨p₁, p₂, hash, h₁, h₂, hin, hout⟩ := offers_differ hmissing
  have hsame := h.two (peerWith_reach [requestEntry (0, hash)]) h₁ h₂ sampleSrc fun _ => 0
  have hfound : ∀ k, findChunk k (peerWith [requestEntry (0, hash)]).downloads.hasChunkTable = true ↔
      hash = k := fun k => by simp [findChunk, peerWith, initPeer, initDownloads, requestEntry]
  have hnothing : inboundWhohas sampleSrc p₂ (peerWith [requestEntry (0, hash)]).downloads =
      .ok ((peerWith [requestEntry (0, hash)]).downloads, []) := by
    rw [inboundWhohas]
    refine if_pos (List.filter_eq_nil_iff.mpr fun k hk hheld => ?_)
    rw [mem_hashes_iff, ← (hfound k).mp hheld, hout] at hk
    cases hk
  have hreply : ∀ d, inboundWhohas sampleSrc p₁ (peerWith [requestEntry (0, hash)]).downloads ≠
      .ok (d, []) := by
    intro d
    rw [inboundWhohas, if_neg fun hnil => List.filter_eq_nil_iff.mp hnil hash (mem_hashes_iff.mpr hin)
      ((hfound hash).mpr rfl)]
    split_ifs <;> simp
  rw [processInboundUdp_whohas (ht.congr h₁ hn), processInboundUdp_whohas (ht.congr h₂ hn),
    hnothing] at hsame
  cases hresult : inboundWhohas sampleSrc p₁ (peerWith [requestEntry (0, hash)]).downloads with
  | error f =>
    rw [hresult] at hsame
    cases hsame
  | ok r =>
    obtain ⟨d, l⟩ := r
    rw [hresult] at hsame
    obtain ⟨-, hlog⟩ := Prod.mk.inj (Except.ok.inj hsame)
    obtain rfl : l = [] := List.map_eq_nil_iff.mp hlog
    exact hreply d hresult

/-- A peer that has asked for the hash. -/
def askingPeer (hash : Hash) : Peer :=
  { peerWith [] with downloads := asking hash }

theorem askingPeer_reach (hash : Hash) : ∃ log, (peerMachine sampleEnv).Reach
    (· = initPeer 1 (fun _ => unsetZero) [] fun _ _ => 0) Machine.Any (askingPeer hash) log :=
  ⟨_, (peerWith_reach []).step (e := PeerEvent.line "out" (some [(0, hash)])) trivial rfl⟩

/-- What a peer without a connection makes of an IHAVE packet: two packets with which it does the same
list the same hashes by their length. -/
theorem updateChunks_eq (h₁ : OfType PacketType.ihave p₁) (h₂ : OfType PacketType.ihave p₂)
    (hprint₁ : printIncomingPacket p₁ = .ok ()) (hprint₂ : printIncomingPacket p₂ = .ok ())
    (hsame : processInboundUdp sampleEnv sampleSrc p₁ (fun _ => 0) (peerWith []) =
      processInboundUdp sampleEnv sampleSrc p₂ (fun _ => 0) (peerWith [])) :
    updateChunks p₁ = updateChunks p₂ := by
  rw [processInboundUdp_ihave h₁, processInboundUdp_ihave h₂, inboundIhave, inboundIhave, hprint₁,
    hprint₂] at hsame
  have hconnections : some [updateChunks p₁] = some [updateChunks p₂] :=
    congrArg (fun r => r.toOption.map fun r => r.1.downloads.connections.map (·.chunks)) hsame
  exact List.head_eq_of_cons_eq (Option.some.inj hconnections)

theorem DependsOn.ihave_length (h : DependsOn n p) (hn : 4 ≤ n) (ht : OfType PacketType.ihave p) :
    8 ≤ n := by
  by_contra hmissing
  have hlength : ∀ b, (p.put 7 b).packetLength = (p.buf 6).toNat * 2 ^ 8 + b.toNat := ntohs_put p 6
  have hlt := (p.buf 6).toNat_lt
  have hprint : ∀ b : UInt8, b.toNat ≤ 100 → printIncomingPacket (p.put 7 b) = .ok () := fun b hb => by
    rw [printIncomingPacket, printLoop_ok (by rw [hlength]; omega) (2 ^ 16) 20 (by rw [hlength]; omega),
      ite_self]
  have hput := fun b => sameBytes_put p b (show n ≤ 7 by omega)
  have hchunks := congrArg List.length (updateChunks_eq (ht.congr (hput 0) hn) (ht.congr (hput 100) hn)
    (hprint 0 (by decide)) (hprint 100 (by decide)) (h.two (peerWith_reach []) (hput 0) (hput 100) _ _))
  simp only [updateChunks, List.length_map, List.length_range, hlength] at hchunks
  change ((p.buf 6).toNat * 2 ^ 8 + 0 - 20) / 20 = ((p.buf 6).toNat * 2 ^ 8 + 100 - 20) / 20 at hchunks
  omega

theorem DependsOn.ihave_hashes (h : DependsOn n p) (hn : 8 ≤ n) (ht : OfType PacketType.ihave p)
    (hprint : printIncomingPacket p = .ok ()) : HashesReceived n ((p.packetLength - 20) / 20) := by
  by_contra hmissing
  rw [HashesReceived, not_or] at hmissing
  obtain ⟨k, hk⟩ := Nat.exists_eq_succ_of_ne_zero hmissing.1
  have hput := sameBytes_put p (p.buf (20 + 20 * k + 19) + 1) (show n ≤ 20 + 20 * k + 19 by omega)
  have hchunks := updateChunks_eq (ht.congr hput (by omega)) ht
    ((hput.printIncomingPacket hn).symm.trans hprint) hprint
    (h.two (peerWith_reach []) hput (fun _ _ => rfl) _ _)
  rw [updateChunks, updateChunks, ← hput.packetLength hn, hk] at hchunks
  exact readHash_put_succ p (20 + 20 * k)
    (List.map_inj_left.mp hchunks k (List.mem_range.mpr (Nat.lt_succ_self k)))

section

variable {hash : Hash} {clk : Clock} (ht : OfType PacketType.ihave p)
  (hprint : printIncomingPacket p = .ok ())

include ht hprint

theorem askingPeer_ihave : processInboundUdp sampleEnv sampleSrc p clk (askingPeer hash) =
    (askingPeer hash).download (.ok (assign sampleSrc 1
      (if packetContainChunk p hash = true then some (0, requestEntry (0, hash)) else none) clk
      { (askingPeer hash).downloads with connections := [⟨1, updateChunks p, .notWorking⟩] })) := by
  have hpick : pickAChunk p { (askingPeer hash).downloads with
      connections := [⟨1, updateChunks p, .notWorking⟩] } =
      if packetContainChunk p hash = true then some (0, requestEntry (0, hash)) else none := by
    unfold pickAChunk pickEntry
    cases hq : packetContainChunk p hash with
    | true => simp [Table.lookup, requestEntry, hq, askingPeer, asking]
    | false => simp [Table.lookup, requestEntry, hq, askingPeer, asking]
  rw [← hpick, processInboundUdp_ihave ht, inboundIhave, hprint]
  rfl

theorem askingPeer_offered (hin : packetContainChunk p hash = true) :
    processInboundUdp sampleEnv sampleSrc p clk (askingPeer hash) =
      .ok ({ peerWith [] with
        downloads :=
          { slots := [⟨1, some hash, [⟨0, 1⟩], clk 2⟩]
            currentRequest := some ⟨some "out", [⟨0, hash, .receiving, none, 0, 0⟩]⟩
            connections := [⟨1, updateChunks p, .working⟩]
            hasChunkTable := []
            files := (askingPeer hash).downloads.files } },
        [.inr (.picked 0), .inr (.handed 0 1 0), .inr (.sent (some sampleSrc) (.get hash))]) := by
  rw [askingPeer_ihave ht hprint, if_pos hin]
  rfl

theorem askingPeer_unoffered (hout : packetContainChunk p hash = false) :
    ∃ s', processInboundUdp sampleEnv sampleSrc p clk (askingPeer hash) = .ok (s', []) := by
  rw [askingPeer_ihave ht hprint, hout]
  exact ⟨_, rfl⟩

end

theorem DependsOn.ihave_count (h : DependsOn n p) (hn : 8 ≤ n) (ht : OfType PacketType.ihave p)
    (hprint : printIncomingPacket p = .ok ()) : 17 ≤ n ∧ HashesReceived n p.chunkCount := by
  by_contra hmissing
  obtain ⟨p₁, p₂, hash, h₁, h₂, hin, hout⟩ := offers_differ hmissing
  obtain ⟨log, hreach⟩ := askingPeer_reach hash
  have hsame := h.two hreach h₁ h₂ sampleSrc fun _ => 0
  obtain ⟨s', hs'⟩ := askingPeer_unoffered (ht.congr h₂ (by omega))
    ((h₂.printIncomingPacket hn).symm.trans hprint) hout
  rw [hs', askingPeer_offered (ht.congr h₁ (by omega)) ((h₁.printIncomingPacket hn).symm.trans hprint)
    hin] at hsame
  cases hsame

/-! ## GET and ACK -/

theorem DependsOn.get (h : DependsOn n p) (hn : 4 ≤ n) (ht : OfType PacketType.get p) :
    6 ≤ n ∧ p.headerLength + sha1HashSize ≤ n := by
  by_contra hmissing
  -- a header length that was not received may point behind the datagram
  obtain ⟨q, hq, hlast⟩ : ∃ q, SameBytes n p q ∧ n ≤ q.headerLength + 19 := by
    by_cases hn6 : 6 ≤ n
    · refine ⟨p, fun _ _ => rfl, ?_⟩
      simp only [sha1HashSize] at hmissing
      omega
    · refine ⟨p.put 5 64, sameBytes_put p 64 (by omega), ?_⟩
      rw [show (p.put 5 64).headerLength = _ from ntohs_put p 4 64]
      change n ≤ _ + 64 + 19
      omega
  have htype : OfType PacketType.get q := ht.congr hq hn
  have hput := sameBytes_put q (q.buf (q.headerLength + 19) + 1) (Nat.le_refl (q.headerLength + 19))
  have htype' := htype.congr hput (by omega)
  have hhash := readHash_put_succ q q.headerLength
  have hsame := h.two (peerWith_reach [requestEntry (0, readHash q.buf q.headerLength)])
    hq (fun k hk => (hq k hk).trans (hput k (by omega))) sampleSrc fun _ => 0
  rw [processInboundUdp_get htype, processInboundUdp_get htype', inboundGetPacket, inboundGetPacket,
    ← hput.headerLength (by omega)] at hsame
  rw [if_pos (by simp [findChunk, peerWith, initPeer, initDownloads, requestEntry]),
    if_neg (by
      simpa [findChunk, peerWith, initPeer, initDownloads, requestEntry] using hhash.symm)] at hsame
  have hlog : some 2 = some 0 := congrArg (fun r => r.toOption.map fun r => r.2.length) hsame
  cases hlog

/-- A peer with an upload that nothing was sent of, at its only slot. -/
theorem uploading_reach : ∃ s log, (peerMachine sampleEnv).Reach
    (· = initPeer 1 (fun _ => unsetZero) [requestEntry (0, sampleHash 0)] fun _ _ => 0) Machine.Any s log ∧
    ∃ slot, getUploadIndexById 1 s.uploads = some (0, slot) ∧ slot.dupAckCount = 0 ∧
      slot.sentQueueHead = [] := by
  have hget : OfType PacketType.get (samplePacket (.get (sampleHash 0))) :=
    ofType_message _ _ (by decide)
  have hhash : readHash (samplePacket (.get (sampleHash 0))).buf
    (samplePacket (.get (sampleHash 0))).headerLength = sampleHash 0 := by decide
  have hstep : (peerMachine sampleEnv).step (.packet sampleSrc (samplePacket (.get (sampleHash 0)))
      fun _ => 0) (peerWith [requestEntry (0, sampleHash 0)]) = .ok (
        { peerWith [requestEntry (0, sampleHash 0)] with
          uploads := (inboundGet 1 (-1) (fun _ => 0) (peerWith []).uploads).1 },
        [.inl (0, .started 1 (-1)), .inl (0, .logWindow 1)]) := by
    rw [peerMachine_packet, processInboundUdp_get hget, inboundGetPacket, hhash]
    rfl
  exact ⟨_, _, (peerWith_reach _).step trivial hstep, _, rfl, rfl, rfl⟩

theorem inboundAck_head {u : Uploads} {q : Int} {i : Nat} {slot : UploadSlot} (env : Env) (seq : Nat)
    (clk : Clock) (hfound : getUploadIndexById q u = some (i, slot)) (hdup : slot.dupAckCount = 0)
    (hnil : slot.sentQueueHead = []) :
    ∃ u' count l, inboundAck env q seq clk u = .ok (u', (i, .acked seq count) :: l) := by
  have hok : ∃ r, slot.takeAck env.smoothing seq clk u.net = .ok r :=
    takeAck_ok_iff_fast.mpr ⟨⟨_, by rw [hnil]; rfl⟩, fun _ htwo => by omega⟩
  obtain ⟨⟨slot', net, acts⟩, hr⟩ := hok
  rw [inboundAck_eq hfound, hr, (takeAck_ok hr).acts]
  dsimp only
  split_ifs <;> exact ⟨_, _, _, rfl⟩

theorem DependsOn.ack (h : DependsOn n p) (hn : 4 ≤ n) (ht : OfType PacketType.ack p) : 16 ≤ n := by
  by_contra hmissing
  obtain ⟨s, log, hreach, slot, hfound, hdup, hnil⟩ := uploading_reach
  have hput := fun b => sameBytes_put p b (show n ≤ 15 by omega)
  have hsame := h.two hreach (hput 0) (hput 1) sampleSrc fun _ => 0
  have hnumber : ∀ b, (p.put 15 b).ackNumber =
      ntohs p.buf 12 * 2 ^ 16 + ((p.buf 14).toNat * 2 ^ 8 + b.toNat) := ntohl_put p 12
  have hacked : ∀ q, OfType PacketType.ack q → ∃ s' count l,
      processInboundUdp sampleEnv sampleSrc q (fun _ => 0) s =
        .ok (s', .inl (0, .acked q.ackNumber count) :: l) := fun q hq => by
    obtain ⟨u, count, l, hu⟩ := inboundAck_head sampleEnv q.ackNumber (fun _ => 0) hfound hdup hnil
    refine ⟨{ s with uploads := u }, count, l.map .inl, ?_⟩
    rw [processInboundUdp_ackPacket hq]
    exact congrArg s.upload hu
  obtain ⟨s₀, c₀, l₀, h₀⟩ := hacked (p.put 15 0) (ht.congr (hput 0) hn)
  obtain ⟨s₁, c₁, l₁, h₁⟩ := hacked (p.put 15 1) (ht.congr (hput 1) hn)
  rw [h₀, h₁] at hsame
  simp only [Except.ok.injEq, Prod.mk.injEq, List.cons.injEq, Sum.inl.injEq, StreamAction.acked.injEq,
    hnumber] at hsame
  have hlast : (0 : UInt8).toNat = (1 : UInt8).toNat := by omega
  cases hlast

/-! ## DATA -/

/-- A peer with one stream, from peer 1 for the only entry of its request. -/
def receivingPeer (record : PacketRecord) (now : Time) (data : Option Memory) (received : Int)
    (bytes : Nat) : Peer :=
  { peerWith [] with downloads := receiving (sampleHash 0) record now data received bytes }

theorem receivingPeer_data {record : PacketRecord} (now : Time) (data : Option Memory) (received : Int)
    (clk : Clock) (ht : OfType PacketType.data p)
    (hseq : advance record.seq p.seqNumber = p.seqNumber) : ∃ length,
    processInboundUdp sampleEnv sampleSrc p clk (receivingPeer record now data received 0) =
      .ok (receivingPeer ⟨p.seqNumber, length⟩ (clk 0)
        (some (copyBytes (data.getD fun _ => 0) 0 (fun k => p.buf (p.headerLength + k)) p.payloadSize))
        (toInt32 p.seqNumber) p.payloadSize,
        [.inr (.sent (some sampleSrc) (.ack p.seqNumber)),
          .inr (.accepted 0 1 p.seqNumber 0 p.payloadSize)]) := by
  have hsize : p.payloadSize ≤ maxPayloadSize := Nat.min_le_right ..
  have hroom : 0 + p.payloadSize < btChunkSize := by
    simp only [maxPayloadSize, btChunkSize] at hsize ⊢
    omega
  obtain ⟨length, hnext⟩ := receiving_next sampleEnv sampleSrc (sampleHash 0) now data received hseq hroom clk
  rw [Incoming.saved, Nat.zero_add] at hnext
  refine ⟨length, ?_⟩
  rw [processInboundUdp_dataPacket ht]
  exact congrArg (receivingPeer record now data received 0).download hnext

/-- A stream may have come to any number: payloads may be empty. -/
theorem receiving_reach (r : Nat) (h : r < 2 ^ 32) : ∃ record now data received log, record.seq = r ∧
    (peerMachine sampleEnv).Reach (· = initPeer 1 (fun _ => unsetZero) [] fun _ _ => 0) Machine.Any
      (receivingPeer record now data received 0) log := by
  induction r with
  | zero =>
    obtain ⟨log, hreach⟩ := askingPeer_reach (sampleHash 0)
    have hlists : (Message.ihave [sampleHash 0]).Lists [sampleHash 0] := Or.inr rfl
    have htype : OfType PacketType.ihave (samplePacket (.ihave [sampleHash 0])) :=
      ofType_message _ _ (by decide)
    have hstep : (peerMachine sampleEnv).step
        (.packet sampleSrc (samplePacket (.ihave [sampleHash 0])) fun _ => 0)
        (askingPeer (sampleHash 0)) = .ok (receivingPeer ⟨0, 1⟩ 0 none 0 0, [.inr (.picked 0), .inr (.handed 0 1 0),
          .inr (.sent (some sampleSrc) (.get (sampleHash 0)))]) := by
      rw [peerMachine_packet, askingPeer_offered htype (printIncomingPacket_ok _ hlists (by decide))
        ((receive_packetContainChunk _ hlists (by decide) _).mpr List.mem_cons_self), samplePacket,
        receive_updateChunks _ hlists (by decide)]
      rfl
    exact ⟨_, _, _, _, _, rfl, hreach.step trivial hstep⟩
  | succ r ih =>
    obtain ⟨record, now, data, received, log, rfl, hreach⟩ := ih (by omega)
    have hlength : (Message.data (record.seq + 1) []).packetLength < 2 ^ 16 :=
      show 0 + headerLength < 2 ^ 16 by decide
    have hseq := receive_seqNumber (Message.data (record.seq + 1) []) (fun _ => 0) hlength
    have hsize :
        (receiveInto (fun _ => 0) (Message.data (record.seq + 1) []).datagram).payloadSize = 0 :=
      receive_payloadSize _ (Nat.zero_le _)
    rw [Message.seqNumber, Nat.mod_eq_of_lt h] at hseq
    have htype : OfType PacketType.data
        (receiveInto (fun _ => 0) (Message.data (record.seq + 1) []).datagram) :=
      ofType_message _ _ hlength
    have hnext : advance record.seq
        (receiveInto (fun _ => 0) (Message.data (record.seq + 1) []).datagram).seqNumber =
        (receiveInto (fun _ => 0) (Message.data (record.seq + 1) []).datagram).seqNumber := by
      rw [hseq, advance, wrap32, Nat.mod_eq_of_lt h, if_pos rfl]
    obtain ⟨length, hstep⟩ := receivingPeer_data now data received (fun _ => 0) htype hnext
    rw [hseq, hsize, ← peerMachine_packet] at hstep
    exact ⟨_, _, _, _, _, rfl, hreach.step trivial hstep⟩

theorem DependsOn.data_header (h : DependsOn n p) (hn : 4 ≤ n) (ht : OfType PacketType.data p) :
    12 ≤ n := by
  by_contra hmissing
  have hput := fun b => sameBytes_put p b (show n ≤ 11 by omega)
  have hseq : ∀ b, (p.put 11 b).seqNumber =
      ntohs p.buf 8 * 2 ^ 16 + ((p.buf 10).toNat * 2 ^ 8 + b.toNat) := ntohl_put p 8
  have hnext : (p.put 11 1).seqNumber = (p.put 11 0).seqNumber + 1 := by
    rw [hseq, hseq]
    have h0 : (0 : UInt8).toNat = 0 := rfl
    have h1 : (1 : UInt8).toNat = 1 := rfl
    omega
  have hlt := seqNumber_lt (p.put 11 1)
  obtain ⟨record, now, data, received, log, hroot, hreach⟩ :=
    receiving_reach _ (seqNumber_lt (p.put 11 0))
  have hsame := h.two hreach (hput 0) (hput 1) sampleSrc fun _ => 0
  obtain ⟨length₀, h₀⟩ := receivingPeer_data now data received (fun _ => 0) (ht.congr (hput 0) hn)
    (show advance record.seq _ = _ by rw [hroot, advance, ite_self])
  obtain ⟨length₁, h₁⟩ := receivingPeer_data now data received (fun _ => 0) (ht.congr (hput 1) hn)
    (show advance record.seq _ = _ by
      rw [hroot, hnext, advance, wrap32, Nat.mod_eq_of_lt (by omega), if_pos rfl])
  rw [h₀, h₁] at hsame
  have hlog := (Prod.mk.inj (Except.ok.inj hsame)).2
  have hack := (DownloadAction.sent.inj (Sum.inr.inj (List.cons.inj hlog).1)).2
  have hacks : (p.put 11 0).seqNumber = (p.put 11 1).seqNumber := Message.ack.inj hack
  omega

theorem DependsOn.data_payload (h : DependsOn n p) (hn : 12 ≤ n) (ht : OfType PacketType.data p) :
    p.payloadSize = 0 ∨ p.headerLength + p.payloadSize ≤ n := by
  by_contra hmissing
  rw [not_or] at hmissing
  obtain ⟨size, hsize⟩ := Nat.exists_eq_succ_of_ne_zero hmissing.1
  have hput := sameBytes_put p (p.buf (p.headerLength + size) + 1)
    (show n ≤ p.headerLength + size by omega)
  obtain ⟨record, now, data, received, log, hroot, hreach⟩ := receiving_reach _ (seqNumber_lt p)
  have hsame := h.two hreach (fun _ _ => rfl) hput sampleSrc fun _ => 0
  obtain ⟨length₀, h₀⟩ := receivingPeer_data now data received (fun _ => 0) ht
    (show advance record.seq _ = _ by rw [hroot, advance, ite_self])
  obtain ⟨length₁, h₁⟩ := receivingPeer_data now data received (fun _ => 0) (ht.congr hput (by omega))
    (show advance record.seq _ = _ by rw [hroot, ← hput.seqNumber hn, advance, ite_self])
  rw [h₀, h₁, ← hput.payloadSize (by omega), ← hput.headerLength (by omega), hsize] at hsame
  have hbytes := congrArg (fun r => r.toOption.bind fun r => r.1.downloads.currentRequest.bind fun q =>
    q.chunks.head?.bind fun c => c.data.map fun m => m size) hsame
  have hlast : ∀ (src : Memory) (dst : Memory), copyBytes dst 0 src (size + 1) size = src size :=
    fun src dst => by rw [copyBytes, if_pos (by omega), Nat.sub_zero]
  change some (copyBytes _ 0 _ (size + 1) size) = some (copyBytes _ 0 _ (size + 1) size) at hbytes
  rw [hlast, hlast, put_self] at hbytes
  exact byte_ne_succ _ (Option.some.inj hbytes)

/-! ## Datagrams that are not whole -/

/-- A packet whose handling depends only on its datagram is whole. -/
theorem DependsOn.whole (h : DependsOn n p) : Whole n p := by
  by_cases hrejected : Rejected n p
  · exact Or.inl hrejected
  · have hn := h.header hrejected
    have hvalid : validatePacket p.magicNumber p.versionNumber p.packetType = true :=
      valid_iff.mpr fun k hk => not_not.mp fun hbad => hrejected ⟨k, by omega, hbad⟩
    refine Or.inr ⟨hn, ?_⟩
    unfold CaseReceived
    split_ifs with hwhohas hihave hget hdata hack
    · exact h.whohas hn ⟨hvalid, hwhohas⟩
    · have hlength := h.ihave_length hn ⟨hvalid, hihave⟩
      refine ⟨hlength, Decidable.or_iff_not_imp_left.mpr fun hprint => ?_⟩
      have hprint : printIncomingPacket p = .ok () := not_not.mp hprint
      exact ⟨h.ihave_hashes hlength ⟨hvalid, hihave⟩ hprint,
        h.ihave_count hlength ⟨hvalid, hihave⟩ hprint⟩
    · exact h.get hn ⟨hvalid, hget⟩
    · have hheader := h.data_header hn ⟨hvalid, hdata⟩
      exact ⟨hheader, h.data_payload hheader ⟨hvalid, hdata⟩⟩
    · exact h.ack hn ⟨hvalid, hack⟩

/-- What a peer makes of a packet depends only on the bytes received, in every state it can reach,
exactly if the datagram is whole; and two runs that read whole datagrams do not differ. -/
theorem acts_on_received (received : Int) (packet : Incoming) :
    (DependsOn received.toNat packet ↔ Whole received.toNat packet) ∧
    ∀ (env : Env) (s : Peer) (es es' : List PeerEvent), List.Forall₂ SameRead es es' →
      (peerMachine env).run es s = (peerMachine env).run es' s :=
  ⟨⟨DependsOn.whole, Whole.dependsOn⟩, fun _ _ _ _ => run_same⟩

/-- An ACK of 16 bytes, received twice over different bytes. -/
theorem acts_on_received_ack : ∃ p p' : Incoming, p.buf 16 ≠ p'.buf 16 ∧ DependsOn 16 p ∧
    (peerMachine sampleEnv).run [.packet sampleSrc p fun _ => 0] (peerWith []) =
      (peerMachine sampleEnv).run [.packet sampleSrc p' fun _ => 0] (peerWith []) := by
  have hsame : SameBytes (16 : Int).toNat (receiveInto (fun _ => 0) (Message.ack 1).datagram)
      (receiveInto (fun _ => 1) (Message.ack 1).datagram) := by
    unfold SameBytes
    decide
  have hwhole : Whole 16 (receiveInto (fun _ => 0) (Message.ack 1).datagram) :=
    Or.inr ⟨by decide, (caseReceived_ack (by decide)).mpr (Nat.le_refl 16)⟩
  obtain ⟨hdepends, hruns⟩ := acts_on_received 16 (receiveInto (fun _ => 0) (Message.ack 1).datagram)
  exact ⟨_, receiveInto (fun _ => 1) (Message.ack 1).datagram, by decide, hdepends.mpr hwhole,
    hruns sampleEnv _ _ _ (.cons (.packet hsame hwhole) .nil)⟩

/-- A receive that fails leaves the last IHAVE packet in the buffer, or a buffer that begins with
zeros: from the one the peer opens a stream. -/
theorem failed_receive_acts : ∃ (s s' : Peer) (log : PeerLog) (p p' : Incoming),
    (peerMachine sampleEnv).Reach (· = initPeer 1 (fun _ => unsetZero) [] fun _ _ => 0) Machine.Any s log ∧
    SameBytes (-1 : Int).toNat p p' ∧
    processInboundUdp sampleEnv sampleSrc p (fun _ => 0) s = .ok (s', [.inr (.picked 0),
      .inr (.handed 0 1 0), .inr (.sent (some sampleSrc) (.get (sampleHash 0)))]) ∧
    processInboundUdp sampleEnv sampleSrc p' (fun _ => 0) s = .ok (s, []) := by
  obtain ⟨log, hreach⟩ := askingPeer_reach (sampleHash 0)
  have htype : OfType PacketType.ihave (samplePacket (.ihave [sampleHash 0])) :=
    ofType_message _ _ (by decide)
  have hlists : (Message.ihave [sampleHash 0]).Lists [sampleHash 0] := Or.inr rfl
  refine ⟨_, _, log, samplePacket (.ihave [sampleHash 0]), ⟨fun _ => 0⟩, hreach, fun k hk => ?_,
    askingPeer_offered htype (printIncomingPacket_ok _ hlists (by decide))
      ((receive_packetContainChunk _ hlists (by decide) _).mpr List.mem_cons_self),
    processInboundUdp_invalid (by decide)⟩
  exact absurd hk (Nat.not_lt_zero k)

end Bittorrent
