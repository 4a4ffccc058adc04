import Bittorrent.Network.Swarm
import Bittorrent.Peer.Answers

/-!
# Answers in a swarm

In a swarm what has come in at a program has been said by another one (`FromProgram`), so every answer has its
question in the log of the program that it goes to (`Caused`): nobody is offered what it has not asked for, nobody
is asked for what it does not have, nobody is sent a chunk that it has not asked for, and no packet is
acknowledged to a program that has not sent it.

`Peer.Answers` has the question among the packets that the program has received; `swarm_hears` has every
such packet among the messages of the other programs. The two are composed in `received_said`, and a type of
packet is a type of message since `make_packet` writes both (`Message.of_packetType`). What remains is
names: the packet came from an address, the answer goes to one, and by `SharedMap` they are those of the
same program (`addressOf_leadsTo`). An offer is of chunks that the program has (`Hearing.holds`), which its
own log says.
-/

namespace Bittorrent

variable {t : Topology} {tables : Nat → Nat → Option Nat} {node : Nat → Option Node} {lines : List PeerLine}
  {terminated : Bool} {s s' : Swarm} {log l : List SwarmAction} {a b v : Nat} {n : Node} {m : Message}
  {pkt : List UInt8} {env : Env} {src : Addr} {packet : Incoming}

/-! ## What was said -/

/-- A program has sent a message. -/
def Says (node : Nat → Option Node) (log : List SwarmAction) (a : Nat) (m : Message) : Prop :=
  ∃ n, node a = some n ∧ ∃ action ∈ programLog a log, saying action = some m

/-- The address is that of a program. -/
def LeadsTo (env : Env) (a : Nat) (dst : Option Addr) : Prop :=
  dst = findAddr env a ∨ ∃ src, dst = some src ∧ btPeerId env src = a

/-- A chunk was in the file of a program at its start, or the program has verified it. -/
def Holds (log : List SwarmAction) (v : Nat) (n : Node) (hash : Hash) : Prop :=
  HashVerified n.env n.start.peer.downloads.hasChunkTable (programLog v log).downloads hash

/-- The question to every answer of a program. -/
def Caused (node : Nat → Option Node) (log : List SwarmAction) (v : Nat) (n : Node) :
    (Nat × StreamAction) ⊕ DownloadAction → Prop
  | .inl (_, .transmitted p seq bytes _) => ∃ a hash k, p = (a : Nat) ∧ Says node log a (.get hash) ∧
      Holds log v n hash ∧ k < maxPacketPerChunk ∧ seq = k + 1 ∧ PayloadOf n.env (getChunkId hash n.env.totalChunkTable) k bytes
  | .inr (.sent dst (.ihave hashes)) => ∃ a asked, LeadsTo n.env a dst ∧ Says node log a (.whohas asked) ∧
      ∀ h ∈ hashes, h ∈ asked ∧ Holds log v n h
  | .inr (.sent dst (.get hash)) => ∃ a n' hashes, LeadsTo n.env a dst ∧ Says node log a (.ihave hashes) ∧
      hash ∈ hashes ∧ node a = some n' ∧ Holds log a n' hash
  | .inr (.sent dst (.ack k)) => ∃ a, LeadsTo n.env a dst ∧ (k = 0 ∨ ∃ bytes, Says node log a (.data k bytes))
  | _ => True

/-- A packet is a message of a program that is known by its address. -/
def FromProgram (node : Nat → Option Node) (log : List SwarmAction) (env : Env) (x : Addr × Incoming) : Prop :=
  ∃ a m stale, btPeerId env x.1 = (a : Nat) ∧ Says node log a m ∧ m.InRange ∧ x.2 = receiveInto stale m.datagram

theorem Says.mono (h : Says node log a m) (l : List SwarmAction) : Says node (log ++ l) a m := by
  obtain ⟨n, ha, action, hmem, hm⟩ := h
  refine ⟨n, ha, action, ?_, hm⟩
  rw [programLog_append]
  exact List.mem_append_left _ hmem

theorem FromProgram.mono {x : Addr × Incoming} (h : FromProgram node log env x) (l : List SwarmAction) :
    FromProgram node (log ++ l) env x := by
  obtain ⟨a, m, stale, hid, hsaid, hrest⟩ := h
  exact ⟨a, m, stale, hid, hsaid.mono l, hrest⟩

theorem handsOver_saying {action : (Nat × StreamAction) ⊕ DownloadAction} {send : Option Addr × List UInt8}
    (h : handsOver env action = some send) : ∃ m, saying action = some m ∧ send.2 = m.datagram := by
  cases action with
  | inl act =>
    obtain ⟨i, act⟩ := act
    cases act with
    | transmitted p seq bytes retransmit =>
      cases h
      exact ⟨_, rfl, rfl⟩
    | _ => cases h
  | inr act =>
    cases act with
    | sent dst m =>
      cases h
      exact ⟨_, rfl, rfl⟩
    | _ => cases h

/-! ## The ids -/

namespace OnNetwork

variable (hon : OnNetwork t tables node terminated lines) (hv : node v = some n)

include hon hv

theorem listed : ListedPeers n.env := by
  obtain ⟨b, hmain, hreads, hmap⟩ := hon.main v n hv
  have hnone : n.env.peers.find? (fun p => decide (p.id.bmod (2 ^ 16) = idNull)) = none := by
    rw [main_find hmain hreads, Option.map_eq_none_iff]
    refine List.find?_eq_none.mpr fun r hr => ?_
    have hr := List.mem_reverse.mp hr
    obtain ⟨hpos, hlt⟩ := hmap.ids r hr
    have hid : r.peerId.bmod (2 ^ 16) = r.id.value := by
      rw [hmap.peerId hr, Int.bmod_eq_of_le_mul_two (by omega) (by omega)]
    have hne : r.peerId.bmod (2 ^ 16) ≠ idNull := by
      rw [hid, idNull]
      omega
    exact fun hnull => hne (of_decide_eq_true hnull)
  exact fun p hp hnull => List.find?_eq_none.mp hnone p hp (decide_eq_true hnull)

theorem peerIdFrom (hid : btPeerId env src = (v : Nat)) : Bittorrent.peerIdFrom env src = (v : Nat) := by
  obtain ⟨-, hlt, -⟩ := hon.spiffy hv
  rw [Bittorrent.peerIdFrom, hid, Int.bmod_eq_of_le_mul_two (by omega) (by omega)]

theorem answerInv {p : Program} {g : Received} {log : PeerLog}
    (h : (hearProgram n.env).Reach (· = (n.start, [])) Machine.Any (p, g) log) :
    AnswerInv n.env n.start.peer.downloads.hasChunkTable g p.peer log := by
  obtain ⟨b, hmain, hreads, -⟩ := hon.main v n hv
  obtain ⟨config, has, -, -, -, -, hinit⟩ := main_ok hmain
  rw [hinit] at h ⊢
  exact answerInv_reach (hearProgram_reach h)

end OnNetwork

/-! ## What comes in -/

/-- Every program has run as it does on messages of the others. -/
def Hearing (node : Nat → Option Node) (s : Swarm) (log : List SwarmAction) : Prop :=
  ∀ v n, node v = some n → ∃ g : Received,
    (hearProgram n.env).Reach (· = (n.start, [])) Machine.Any (s.program v, g) (programLog v log) ∧
      ∀ x ∈ g, FromProgram node log n.env x

theorem receiveInto_read {buf : Memory} {bytes : List UInt8} (h : readBytes buf 0 bytes.length = bytes) :
    receiveInto buf ([].take buflen) = receiveInto buf bytes := by
  refine congrArg Incoming.mk (funext fun k => ?_)
  rw [List.take_nil, List.getD_nil]
  by_cases hk : k < bytes.length
  · calc buf k = (readBytes buf 0 bytes.length).getD k (buf k) := by
          rw [List.getD_eq_getElem _ _ (by rwa [readBytes_length])]
          simp [readBytes]
      _ = bytes.getD k (buf k) := by rw [h]
  · rw [List.getD_eq_default _ _ (Nat.le_of_not_lt hk)]

theorem Hearing.received (hon : OnNetwork t tables node terminated lines) (hheard : Heard t tables node s log)
    (h : Hearing node s log) (hv : node v = some n) {rest : List (List UInt8)} (hsocket : s.socket v = pkt :: rest)
    (receipt : Receipt) :
    FromProgram node log n.env ((n.recv receipt pkt).2.2, receiveInto (n.recv receipt pkt).2.1 ([].take buflen)) := by
  obtain ⟨buf, src, hrecv, hread, hheard'⟩ := hheard.receive hon hv hsocket receipt
  have hlast : .heard v src (messageOf pkt) ∈ log ++ [.heard v src (messageOf pkt)] :=
    List.mem_append_right log (List.mem_singleton.mpr rfl)
  obtain ⟨n₁, a, hn₁, ⟨n', ha⟩, hid⟩ := hheard'.known v src (messageOf pkt) hlast
  obtain rfl := Option.some.inj (hv.symm.trans hn₁)
  have hmem : messageOf pkt ∈ heard n.env a v (log ++ [.heard v src (messageOf pkt)]) :=
    List.mem_filterMap.mpr ⟨_, hlast, if_pos ⟨rfl, hid⟩⟩
  obtain ⟨msg, hmsg, htake⟩ := List.mem_map.mp ((hheard'.hears hon ha hv).subset hmem)
  have hlog : programLog a (log ++ [.heard v src (messageOf pkt)]) = programLog a log := by
    rw [programLog_append]
    exact List.append_nil _
  rw [hlog] at hmsg
  obtain ⟨send, hsend, hsome⟩ := List.mem_filterMap.mp hmsg
  split_ifs at hsome
  obtain rfl := Option.some.inj hsome
  obtain ⟨action, haction, hhands⟩ := List.mem_filterMap.mp hsend
  obtain ⟨m, hsaying, hbytes⟩ := handsOver_saying hhands
  obtain ⟨g, hreach, -⟩ := h a n' ha
  have hrange := ((hon.answerInv ha hreach).answers haction).2 m hsaying
  have hfits : m.datagram.length ≤ buflen := (wire_round_trip m hrange buf).fits
  rw [hbytes, List.take_of_length_le hfits] at htake
  rw [← htake] at hread
  rw [hrecv]
  exact ⟨a, m, buf, hid, ⟨n', ha, action, haction, hsaying⟩, hrange, receiveInto_read hread⟩

theorem Hearing.step (hon : OnNetwork t tables node terminated lines) (hheard : Heard t tables node s log)
    (h : Hearing node s log) {e : SwarmEvent} (hstep : (swarmMachine t tables node).step e s = .ok (s', l)) :
    Hearing node s' (log ++ l) := by
  intro v n hv
  obtain ⟨g, hreach, hfrom⟩ := h v n hv
  rw [programLog_append]
  rcases program_step hv hstep with ⟨hsame, hlog⟩ | ⟨input, hreads, hprogram⟩
  · rw [hsame, hlog, List.append_nil]
    exact ⟨g, hreach, fun x hx => (hfrom x hx).mono l⟩
  · refine ⟨g ++ input.received, hreach.step trivial (Machine.observe_step.mpr ⟨hprogram, rfl⟩), fun x hx => ?_⟩
    rcases List.mem_append.mp hx with hx | hx
    · exact (hfrom x hx).mono l
    · rcases hreads with hnone | ⟨pkt, rest, receipt, hsocket, hsome⟩
      · rw [Input.received, hnone] at hx
        cases hx
      · rw [Input.received, hsome] at hx
        rw [List.mem_singleton.mp hx]
        exact (h.received hon hheard hv hsocket receipt).mono l

theorem hearing_reach (hon : OnNetwork t tables node terminated lines)
    (hreach : (swarmMachine t tables node).Reach (Swarm.Starts node) Machine.Any s log) : Hearing node s log := by
  refine hreach.invariant (fun s hs v n hv => ?_) fun s log e s' l hr h _ hstep => h.step hon (heard_reach hon hr) hstep
  refine ⟨[], ?_, fun x hx => absurd hx List.not_mem_nil⟩
  rw [hs.program v n hv]
  exact .start rfl

/-! ## Questions -/

theorem Message.of_packetType :
    (m.packetType = PacketType.whohas → ∃ hashes, m = .whohas hashes) ∧
      (m.packetType = PacketType.ihave → ∃ hashes, m = .ihave hashes) ∧
      (m.packetType = PacketType.get → ∃ hash, m = .get hash) ∧
      (m.packetType = PacketType.data → ∃ seq bytes, m = .data seq bytes) := by
  cases m <;> simp [Message.packetType, PacketType.whohas, PacketType.ihave, PacketType.get, PacketType.data,
    PacketType.ack]

section

variable {g : Received} (hg : ∀ x ∈ g, FromProgram node log env x)

include hg

theorem received_said (hmem : (src, packet) ∈ g) : ∃ a m stale, btPeerId env src = (a : Nat) ∧ Says node log a m ∧
    m.InRange ∧ packet = receiveInto stale m.datagram ∧ packet.packetType = m.packetType := by
  obtain ⟨a, m, stale, hid, hsaid, hrange, rfl⟩ := hg _ hmem
  exact ⟨a, m, stale, hid, hsaid, hrange, rfl, (wire_round_trip m hrange stale).packetType⟩

variable (hon : OnNetwork t tables node terminated lines)

include hon

theorem came_said {kind : Nat} {p : Int} (h : Came env g kind p packet) : ∃ a m stale, p = (a : Nat) ∧
    Says node log a m ∧ m.InRange ∧ packet = receiveInto stale m.datagram ∧ m.packetType = kind := by
  obtain ⟨src, hmem, hp⟩ := h.source
  obtain ⟨a, m, stale, hid, hsaid, hrange, hpacket, hkind⟩ := received_said hg hmem
  obtain ⟨n', ha, hsent⟩ := hsaid
  exact ⟨a, m, stale, hp.symm.trans (hon.peerIdFrom ha hid), ⟨n', ha, hsent⟩, hrange, hpacket,
    hkind.symm.trans h.kind⟩

theorem offered_said {p : Int} {hash : Hash} (h : HasOffered env g p hash) : ∃ a hashes, p = (a : Nat) ∧
    Says node log a (.ihave hashes) ∧ hash ∈ hashes := by
  obtain ⟨packet, hcame, hlisted⟩ := h
  obtain ⟨a, m, stale, hp, hsaid, hrange, rfl, hkind⟩ := came_said hg hon hcame
  obtain ⟨hashes, rfl⟩ := Message.of_packetType.2.1 hkind
  rw [listedHashes_receive stale (Or.inr rfl) hrange.2, List.mem_append, or_self] at hlisted
  exact ⟨a, hashes, hp, hsaid, hlisted⟩

theorem sent_said {p : Int} {seq : Nat} (h : HasSent env g p seq) : ∃ a bytes, p = (a : Nat) ∧
    Says node log a (.data seq bytes) := by
  obtain ⟨packet, hcame, rfl⟩ := h
  obtain ⟨a, m, stale, hp, hsaid, hrange, rfl, hkind⟩ := came_said hg hon hcame
  obtain ⟨seq, bytes, rfl⟩ := Message.of_packetType.2.2.2 hkind
  refine ⟨a, bytes, hp, ?_⟩
  rw [(wire_round_trip _ hrange stale).seqNumber]
  exact hsaid

theorem addressOf_leadsTo {p : Int} {a : Nat} {dst : Option Addr} (h : AddressOf env g p dst) (hp : p = (a : Nat)) :
    LeadsTo env a dst := by
  subst hp
  rcases h with hfind | ⟨src, packet, hmem, hid, hdst⟩
  · exact Or.inl hfind
  · obtain ⟨a', m, stale, hid', ⟨n', ha', -⟩, -⟩ := received_said hg hmem
    rw [hon.peerIdFrom ha' hid'] at hid
    exact Or.inr ⟨src, hdst, hid'.trans hid⟩

end

theorem Hearing.holds (hon : OnNetwork t tables node terminated lines) (h : Hearing node s log) {hashes : List Hash}
    (hsaid : Says node log a (.ihave hashes)) : ∃ n, node a = some n ∧ ∀ hash ∈ hashes, Holds log a n hash := by
  obtain ⟨n, ha, action, hmem, hsaying⟩ := hsaid
  obtain ⟨g, hreach, -⟩ := h a n ha
  have hanswers := ((hon.answerInv ha hreach).answers hmem).1
  refine ⟨n, ha, fun hash hhash => ?_⟩
  cases action with
  | inl act =>
    obtain ⟨i, act⟩ := act
    cases act with
    | transmitted p seq bytes retransmit => cases hsaying
    | _ => cases hsaying
  | inr act =>
    cases act with
    | sent dst m =>
      cases hsaying
      obtain ⟨src, packet, -, -, -, hheld⟩ := hanswers
      exact (hheld hash hhash).2
    | _ => cases hsaying

/-- However the programs of a swarm, the simulator and the losses take turns: a program sends DATA only of a chunk
that it holds and only to one that has asked for the chunk, it offers only chunks that it holds and has been asked
about, it asks only for a chunk that the one it asks has offered and holds, and it acknowledges only a packet that
the other one has sent. -/
theorem swarm_causes (hon : OnNetwork t tables node terminated lines)
    (hreach : (swarmMachine t tables node).Reach (Swarm.Starts node) Machine.Any s log) :
    ∀ v n, node v = some n → ∀ action ∈ programLog v log, Caused node log v n action := by
  intro v n hv action hmem
  have hhearing := hearing_reach hon hreach
  obtain ⟨g, hprogram, hg⟩ := hhearing v n hv
  have hanswers := ((hon.answerInv hv hprogram).answers hmem).1
  cases action with
  | inl act =>
    obtain ⟨i, act⟩ := act
    cases act with
    | transmitted p seq bytes retransmit =>
      obtain ⟨c, k, ⟨packet, hcame, hheld, rfl⟩, hk, rfl, hbytes⟩ := hanswers
      obtain ⟨a, m, stale, hp, hsaid, hrange, rfl, hkind⟩ := came_said hg hon hcame
      obtain ⟨hash, rfl⟩ := Message.of_packetType.2.2.1 hkind
      rw [(wire_round_trip _ hrange stale).hash hash rfl] at hheld hbytes
      exact ⟨a, hash, k, hp, hsaid, hheld, hk, rfl, hbytes⟩
    | _ => trivial
  | inr act =>
    cases act with
    | sent dst m =>
      cases m with
      | ihave hashes =>
        obtain ⟨src, packet, hreceived, hkind, hdst, hheld⟩ := hanswers
        obtain ⟨a, m, stale, hid, hsaid, hrange, rfl, hsame⟩ := received_said hg hreceived
        obtain ⟨asked, rfl⟩ := Message.of_packetType.1 (hsame.symm.trans hkind)
        rw [receive_listed (Or.inl rfl) hrange.2] at hheld
        exact ⟨a, asked, Or.inr ⟨src, hdst, hid⟩, hsaid, hheld⟩
      | get hash =>
        obtain ⟨p, hoffered, haddress⟩ := hanswers
        obtain ⟨a, hashes, hp, hsaid, hlisted⟩ := offered_said hg hon hoffered
        obtain ⟨n', ha, hholds⟩ := hhearing.holds hon hsaid
        exact ⟨a, n', hashes, addressOf_leadsTo hg hon haddress hp, hsaid, hlisted, ha, hholds hash hlisted⟩
      | ack k =>
        obtain ⟨src, packet, hreceived, -, hdst, hsent⟩ := hanswers
        obtain ⟨a, m, stale, hid, ⟨n', ha, -⟩, -⟩ := received_said hg hreceived
        refine ⟨a, Or.inr ⟨src, hdst, hid⟩, (hsent (hon.listed hv)).imp_right fun hsent => ?_⟩
        obtain ⟨a', bytes, hp, hsaid⟩ := sent_said hg hon hsent
        rw [hon.peerIdFrom ha hid] at hp
        exact ⟨bytes, Int.natCast_inj.mp hp ▸ hsaid⟩
      | whohas hashes => trivial
      | data seq bytes => trivial
    | _ => trivial

/-! ## Two programs -/

/-- A start as the first peer, with room for one download. -/
def askingBoot : Boot := { pairBoot 49 with opts := .m [49] :: (pairBoot 49).opts }

/-- A start as the second peer, with one chunk in its file. -/
def holdingBoot : Boot :=
  { pairBoot 50 with
    fopen name := if name = [99] then some ([48, 32] ++ List.replicate 40 48 ++ [10]) else (pairBoot 50).fopen name }

def askingNode : Node :=
  match askingBoot.main with
  | .ok (some (env, spiffy, start)) => ⟨env, spiffy, start⟩
  | _ => startedNode 49

def holdingNode : Node :=
  match holdingBoot.main with
  | .ok (some (env, spiffy, start)) => ⟨env, spiffy, start⟩
  | _ => startedNode 50

theorem askingNode_onPair : OnPair askingBoot 1 askingNode := by
  have hid : askingNode.env.identity = 1 := by decide +kernel
  refine ⟨rfl, ⟨fun config h => ?_, ⟨by decide, Or.inl rfl⟩, trivial, fun r _ => rfl⟩, rfl, rfl, hid⟩
  obtain rfl := Except.ok.inj h
  rfl

theorem holdingNode_onPair : OnPair holdingBoot 2 holdingNode := by
  have hid : holdingNode.env.identity = 2 := by decide +kernel
  refine ⟨rfl, ⟨fun config h => ?_, ⟨by decide, Or.inl rfl⟩, trivial, fun r _ => rfl⟩, rfl, rfl, hid⟩
  obtain rfl := Except.ok.inj h
  rfl

/-- The first program asks for a chunk, the second one offers it, and the first one asks for it. -/
def holdingRun : Except Fault (Swarm × List SwarmAction) :=
  (swarmMachine pairTopology pairTables (pairNode askingNode holdingNode)).run
    [.iterate 1 none pairInput, .enter, .release 1 2, .iterate 2 (some pairReceipt) idleInput, .enter, .release 2 1,
      .iterate 1 (some pairReceipt) idleInput] (pairSwarm askingNode holdingNode)

/-- The action asks an address for a chunk. -/
def asksFor (dst : Addr) (hash : Hash) : (Nat × StreamAction) ⊕ DownloadAction → Bool
  | .inr (.sent dst' (.get hash')) => dst' = some dst ∧ hash' = hash
  | _ => false

theorem asksFor_eq {dst : Addr} {hash : Hash} {action : (Nat × StreamAction) ⊕ DownloadAction}
    (h : asksFor dst hash action = true) : action = .inr (.sent (some dst) (.get hash)) := by
  unfold asksFor at h
  split at h
  · obtain ⟨rfl, rfl⟩ := of_decide_eq_true h
    rfl
  · cases h

/-- The chunk that is asked for has been offered by the second program. -/
theorem swarm_causes_pair : ∃ s log, holdingRun = .ok (s, log) ∧
    .inr (.sent (some ⟨0, 2⟩) (.get (sampleHash 0))) ∈ programLog 1 log ∧
    Caused (pairNode askingNode holdingNode) log 1 askingNode (.inr (.sent (some ⟨0, 2⟩) (.get (sampleHash 0)))) := by
  have hasks : (holdingRun.toOption.map fun r => (programLog 1 r.2).any (asksFor ⟨0, 2⟩ (sampleHash 0))) =
      some true := by
    decide +kernel
  rcases hrun : holdingRun with f | ⟨s, log⟩
  · rw [hrun] at hasks
    cases hasks
  · rw [hrun] at hasks
    obtain ⟨action, hmem, hasks⟩ := List.any_eq_true.mp (Option.some.inj hasks)
    obtain rfl := asksFor_eq hasks
    have hreach : (swarmMachine pairTopology pairTables (pairNode askingNode holdingNode)).Reach
        (Swarm.Starts (pairNode askingNode holdingNode)) Machine.Any s log :=
      Machine.Reach.runAny _ (.start pairSwarm_starts) hrun
    exact ⟨s, log, rfl, hmem, swarm_causes (pairNode_onNetwork askingNode_onPair holdingNode_onPair) hreach 1 askingNode
      rfl _ hmem⟩

end Bittorrent
