import Bittorrent.Network.Delivery
import Bittorrent.Peer.Startup
import Bittorrent.Stream.Wire
import Mathlib.Data.List.Find
import Mathlib.Data.List.GetD

/-!
# Messages through the simulator

Programs and simulator read one `nodes.map`. What a program sends to the address that it finds for another one
goes to the router behind a header, and the simulator reads in that header the node it comes from and the node
that has the address. What comes out is sent to that address, and there the header gives way to the message: it
lies in the buffer as if it had come directly, from the port by which `bt_peer_id` knows the sender.

It is two conversions, there and back. The header is fourteen bytes, written by `spiffy_sendto`, read by the
simulator with `unpack` and by `spiffy_recvfrom`, and the three agree (`unpack_bytes`,
`spiffyRecvfrom_bytes`). The addresses are looked up in three tables that were read from one file: the peer
list finds the address of an id, the simulator the node of an address, and `bt_peer_id` the id of a port.
`SharedMap` says when these are inverse to each other. `messages_arrive` then reads what `network_fifo` says
of packets as something about messages.
-/

namespace Bittorrent

open HupsimAction (entering leaving lost)

variable {t : Topology} {tables : Nat → Nat → Option Nat} {h : Hupsim} {log : List HupsimAction}
  {lines : List PeerLine} {terminated : Bool} {g : Spiffy} {head : SpiffyHeader} {msg : List UInt8} {m : Memory}
  {gethostbyname : List UInt8 → Option Nat} {r : PeerRecord}

/-! ## The header -/

/-- What of the fields goes over the wire. -/
def SpiffyHeader.onWire (head : SpiffyHeader) : SpiffyHeader :=
  ⟨head.id % 2 ^ 32, head.srcAddr % 2 ^ 32, head.destAddr % 2 ^ 32, head.srcPort % 2 ^ 16, head.destPort % 2 ^ 16⟩

theorem SpiffyHeader.bytes_length (head : SpiffyHeader) : head.bytes.length = spiffyHeaderSize := rfl

theorem readSpiffyHeader_bytes (hm : ∀ k < spiffyHeaderSize, m k = head.bytes.getD k 0) :
    readSpiffyHeader m = head.onWire := by
  have hshort : ∀ off n, off + 2 ≤ spiffyHeaderSize → head.bytes.getD off 0 = UInt8.ofNat (n / 2 ^ 8) →
      head.bytes.getD (off + 1) 0 = UInt8.ofNat n → ntohs m off = n % 2 ^ 16 := by
    intro off n hoff h0 h1
    exact ntohs_eq ((hm off (by omega)).trans h0) ((hm (off + 1) (by omega)).trans h1)
  have hid : ntohl m 0 = head.id % 2 ^ 32 :=
    ntohl_eq (hshort 0 _ (by decide) rfl rfl) (hshort 2 _ (by decide) rfl rfl)
  have hsrcAddr : ntohl m 4 = head.srcAddr % 2 ^ 32 :=
    ntohl_eq (hshort 4 _ (by decide) rfl rfl) (hshort 6 _ (by decide) rfl rfl)
  have hdestAddr : ntohl m 8 = head.destAddr % 2 ^ 32 :=
    ntohl_eq (hshort 8 _ (by decide) rfl rfl) (hshort 10 _ (by decide) rfl rfl)
  have hsrcPort : ntohs m 12 = head.srcPort % 2 ^ 16 := hshort 12 _ (by decide) rfl rfl
  have hdestPort : ntohs m 14 = head.destPort % 2 ^ 16 := hshort 14 _ (by decide) rfl rfl
  rw [readSpiffyHeader, hid, hsrcAddr, hdestAddr, hsrcPort, hdestPort]
  rfl

theorem unpack_bytes (head : SpiffyHeader) (msg : List UInt8) :
    sourceNode (head.bytes ++ msg) = head.onWire.id ∧ unpackN (head.bytes ++ msg) 8 = head.onWire.destAddr ∧
      unpackn (head.bytes ++ msg) 14 = head.onWire.destPort := by
  have hlength : spiffyHeaderSize ≤ (head.bytes ++ msg).length := by
    rw [List.length_append, head.bytes_length]
    exact Nat.le_add_right _ _
  have hread : readSpiffyHeader (fun k => (head.bytes ++ msg).getD k 0) = head.onWire :=
    readSpiffyHeader_bytes fun k hk => List.getD_append _ _ _ _ hk
  have hfour : ∀ off, off + 4 ≤ spiffyHeaderSize →
      unpackN (head.bytes ++ msg) off = ntohl (fun k => (head.bytes ++ msg).getD k 0) off :=
    fun off hoff => if_pos (hoff.trans hlength)
  have htwo : ∀ off, off + 2 ≤ spiffyHeaderSize →
      unpackn (head.bytes ++ msg) off = ntohs (fun k => (head.bytes ++ msg).getD k 0) off :=
    fun off hoff => if_pos (hoff.trans hlength)
  rw [sourceNode, hfour 0 (by decide), hfour 8 (by decide), htwo 14 (by decide)]
  exact ⟨congrArg SpiffyHeader.id hread, congrArg SpiffyHeader.destAddr hread, congrArg SpiffyHeader.destPort hread⟩

/-- What `spiffy_recvfrom` makes of it: as much of the message as the buffer holds, from the address in the
header. -/
theorem spiffyRecvfrom_bytes (henabled : g.enabled = true) (size : Nat) (head : SpiffyHeader) (msg : List UInt8)
    (sender src : Addr) (heap buf : Memory) :
    ∃ stack, spiffyRecvfrom g size heap (some (sender, head.bytes ++ msg)) buf src =
      (((msg.take size).length : Int), (receiveInto stack (msg.take size)).buf,
        (⟨head.onWire.srcAddr, head.onWire.srcPort⟩ : Addr)) := by
  have htake : (head.bytes ++ msg).take (size + spiffyHeaderSize) = head.bytes ++ msg.take size := by
    rw [List.take_append, head.bytes_length, Nat.add_sub_cancel, List.take_of_length_le]
    rw [head.bytes_length]
    exact Nat.le_add_left _ _
  have hlength : (head.bytes ++ msg.take size).length = spiffyHeaderSize + (msg.take size).length := by
    rw [List.length_append, head.bytes_length]
  have hread : readSpiffyHeader (receiveInto heap (head.bytes ++ msg.take size)).buf = head.onWire := by
    refine readSpiffyHeader_bytes fun k hk => ?_
    have hk' : k < head.bytes.length := hk
    simp only [receiveInto, List.getD_append _ _ _ _ hk', List.getD_eq_getElem _ _ hk']
  refine ⟨fun k => if k < size then heap (spiffyHeaderSize + k) else buf k, ?_⟩
  have hne : ¬ (spiffyHeaderSize + (msg.take size).length = 0) := by
    rw [spiffyHeaderSize]
    omega
  have hmsg : (msg.take size).length ≤ size := List.length_take_le size msg
  simp only [spiffyRecvfrom, henabled, if_true, htake, hlength, if_neg hne, hread, Prod.mk.injEq, and_true]
  refine ⟨by omega, funext fun k => ?_⟩
  have hbehind : (head.bytes ++ msg.take size).getD (spiffyHeaderSize + k) (heap (spiffyHeaderSize + k)) =
      (msg.take size).getD k (heap (spiffyHeaderSize + k)) := by
    rw [List.getD_append_right _ _ _ _ (by rw [head.bytes_length]; exact Nat.le_add_right _ _), head.bytes_length,
      Nat.add_sub_cancel_left]
  simp only [copyBytes, receiveInto, Nat.zero_le, true_and, Nat.zero_add, Nat.sub_zero, hbehind]
  by_cases hk : k < size
  · rw [if_pos hk, if_pos hk]
  · rw [if_neg hk, if_neg hk, List.getD_eq_default _ _ (by omega)]

/-! ## One map for all -/

/-- What the simulator reads of a record. -/
def PeerRecord.nodeLine (gethostbyname : List UInt8 → Option Nat) (r : PeerRecord) : NodeLine :=
  ⟨r.id.value.toNat, (gethostbyname r.host).getD 0, r.sinPort⟩

/-- The nodes of the simulator are the peers of the list. Their ids are positive `short`s, their hosts are known
and not 0.0.0.0, and no two have the same port. -/
structure SharedMap (t : Topology) (gethostbyname : List UInt8 → Option Nat) (lines : List PeerLine) : Prop where
  nodes : t.nodes = (PeerLine.records lines).map (PeerRecord.nodeLine gethostbyname)
  ids : ∀ r ∈ PeerLine.records lines, 0 < r.id.value ∧ r.id.value < 2 ^ 15
  addrs : ∀ r ∈ PeerLine.records lines, ∃ ip, gethostbyname r.host = some ip ∧ ip ≠ 0 ∧ ip < 2 ^ 32
  ports : ∀ r ∈ PeerLine.records lines, ∀ r' ∈ PeerLine.records lines, r.sinPort = r'.sinPort → r = r'

theorem lastRecord_mem {q : PeerRecord → Bool} (hlast : PeerLine.lastRecord lines q = some r) :
    r ∈ PeerLine.records lines ∧ q r = true :=
  ⟨List.mem_reverse.mp (List.mem_of_find?_eq_some hlast), List.find?_some hlast⟩

namespace SharedMap

variable (hmap : SharedMap t gethostbyname lines) (hr : r ∈ PeerLine.records lines)

include hmap hr

theorem peerId : r.peerId = r.id.value := by
  obtain ⟨hpos, hlt⟩ := hmap.ids r hr
  rw [PeerRecord.peerId, Int.bmod_eq_of_le_mul_two (by omega) (by omega)]

theorem find_port {q : PeerRecord → Bool} (hq : q r = true)
    (hport : ∀ r' ∈ PeerLine.records lines, q r' = true → r'.sinPort = r.sinPort) :
    (PeerLine.records lines).reverse.find? q = some r := by
  rcases hfind : (PeerLine.records lines).reverse.find? q with _ | r'
  · exact absurd hq (List.find?_eq_none.mp hfind r (List.mem_reverse.mpr hr))
  · have hr' := List.mem_reverse.mp (List.mem_of_find?_eq_some hfind)
    rw [hmap.ports r' hr' r hr (hport r' hr' (List.find?_some hfind))]

theorem node : t.node ((gethostbyname r.host).getD 0) r.sinPort = some r.id.value.toNat := by
  have hfind := hmap.find_port hr (q := fun r' => decide ((gethostbyname r'.host).getD 0 = (gethostbyname r.host).getD 0 ∧
    r'.sinPort = r.sinPort)) (by simp) fun r' _ hq => (of_decide_eq_true hq).2
  rw [Topology.node, hmap.nodes, ← List.map_reverse, List.find?_map, Option.map_map]
  exact congrArg (Option.map fun r => (PeerRecord.nodeLine gethostbyname r).node) hfind

omit hr in
theorem nodeKey {id : Int} (hlast : PeerLine.lastRecord lines (fun r => r.peerId = id) = some r) :
    t.nodeKey id.toNat = some (r.peer gethostbyname).addr := by
  obtain ⟨hr, hid⟩ := lastRecord_mem hlast
  have hid : r.peerId = id := of_decide_eq_true hid
  have hsame : ∀ r' ∈ (PeerLine.records lines).reverse,
      decide (r'.id.value.toNat = id.toNat) = decide (r'.peerId = id) := by
    intro r' hr'
    have hr' := List.mem_reverse.mp hr'
    have hpos := hmap.ids r hr
    have hpos' := hmap.ids r' hr'
    rw [hmap.peerId hr] at hid
    rw [hmap.peerId hr', decide_eq_decide]
    omega
  have hfind : (PeerLine.records lines).reverse.find? (fun r' => decide (r'.id.value.toNat = id.toNat)) = some r :=
    (List.find?_congr hsame).trans hlast
  rw [Topology.nodeKey, hmap.nodes, ← List.map_reverse, List.find?_map, Option.map_map]
  exact congrArg (Option.map fun r => (r.peer gethostbyname).addr) hfind

end SharedMap

/-! ## From program to program -/

/-- A program that has started with a router set, and the lines of its peer list. -/
structure Started (b : Boot) (env : Env) (g : Spiffy) (terminated : Bool) (lines : List PeerLine) : Prop where
  main : ∃ p, b.main = .ok (some (env, g, p))
  reads : ReadsPeers b terminated lines
  router : g.enabled = true

section

variable {b b' : Boot} {env env' : Env} {g g' : Spiffy} (hsend : Started b env g terminated lines)
  (hrecv : Started b' env' g' terminated lines) (hmap : SharedMap t b.gethostbyname lines)

theorem Started.identity {b : Boot} {env : Env} {g : Spiffy} (hstarted : Started b env g terminated lines) :
    ∃ r, PeerLine.lastRecord lines (fun r => r.peerId = env.identity) = some r ∧ g.nodeID = env.identity ∧
      g.srcAddr = 0 ∧ g.srcPort = r.sinPort := by
  obtain ⟨p, hmain⟩ := hstarted.main
  obtain ⟨-, r, hlast, hrouter⟩ := main_identity hmain hstarted.reads
  exact ⟨r, hlast, hrouter hstarted.router⟩

include hsend hrecv hmap

theorem Started.sends :
    ∃ head : SpiffyHeader, head.onWire.srcAddr = 0 ∧ head.onWire.srcPort = g.srcPort ∧ ∀ msg,
      spiffySendto g msg (findAddr env env'.identity) = .ok (some g.router, head.bytes ++ msg) ∧
        OfFlow t env.identity.toNat env'.identity.toNat (head.bytes ++ msg) = true := by
  obtain ⟨p, hmain⟩ := hsend.main
  obtain ⟨r, hlast, hnodeID, hsrcAddr, hsrcPort⟩ := hsend.identity
  obtain ⟨r', hlast', -⟩ := hrecv.identity
  obtain ⟨hr, hid⟩ := lastRecord_mem hlast
  obtain ⟨hr', hid'⟩ := lastRecord_mem hlast'
  have hid : r.id.value = env.identity := (hmap.peerId hr).symm.trans (of_decide_eq_true hid)
  have hid' : r'.id.value = env'.identity := (hmap.peerId hr').symm.trans (of_decide_eq_true hid')
  obtain ⟨hpos, hlt⟩ := hmap.ids r hr
  obtain ⟨ip, hip, hne, hsmall⟩ := hmap.addrs r' hr'
  have haddr : (b.gethostbyname r'.host).getD 0 = ip := by rw [hip, Option.getD_some]
  have hport : ∀ r : PeerRecord, r.sinPort < 2 ^ 16 := fun r => by
    rw [PeerRecord.sinPort]
    omega
  have hunsigned : toUnsigned env.identity = env.identity.toNat := by
    rw [toUnsigned, Int.emod_eq_of_lt (by omega) (by omega)]
  have hnode : env.identity.toNat < 2 ^ 32 := by omega
  refine ⟨⟨env.identity.toNat, 0, ip, r.sinPort, r'.sinPort⟩, rfl, ?_, fun msg => ⟨?_, ?_⟩⟩
  · exact (Nat.mod_eq_of_lt (hport r)).trans hsrcPort.symm
  · rw [main_findAddr hmain hsend.reads, hlast', Option.map_some]
    simp only [spiffySendto, hsend.router, if_true, PeerRecord.peer, haddr, hnodeID, hunsigned, hsrcAddr, hsrcPort]
  · obtain ⟨hsource, hdest, hdestPort⟩ := unpack_bytes ⟨env.identity.toNat, 0, ip, r.sinPort, r'.sinPort⟩ msg
    refine ofFlow_iff.mpr ⟨hsource.trans (Nat.mod_eq_of_lt hnode), ?_⟩
    simp only [SpiffyHeader.onWire, Nat.mod_eq_of_lt hsmall, Nat.mod_eq_of_lt (hport r')] at hdest hdestPort
    simp only [destNode, hdest, hdestPort, if_neg hne]
    rw [← haddr, hmap.node hr', hid']

theorem Started.address : t.nodeKey env'.identity.toNat = findAddr env env'.identity ∧
    btPeerId env' ⟨0, g.srcPort⟩ = env.identity := by
  obtain ⟨p, hmain⟩ := hsend.main
  obtain ⟨p', hmain'⟩ := hrecv.main
  obtain ⟨r, hlast, -, -, hsrcPort⟩ := hsend.identity
  obtain ⟨r', hlast', -⟩ := hrecv.identity
  obtain ⟨hr, hid⟩ := lastRecord_mem hlast
  refine ⟨?_, ?_⟩
  · rw [hmap.nodeKey hlast', main_findAddr hmain hsend.reads, hlast', Option.map_some]
  · have hfind : PeerLine.lastRecord lines (fun r' => r'.sinPort = g.srcPort) = some r :=
      hmap.find_port hr (decide_eq_true hsrcPort.symm) fun r' _ hq => (of_decide_eq_true hq).trans hsrcPort
    rw [main_btPeerId hmain' hrecv.reads, hfind]
    exact of_decide_eq_true hid

end

/-- Two programs on a connected network, whatever else is sent and in whatever order the queues are served: the
simulator takes what one of them sends to the other as of the flow between their nodes, and sends it on to the
other's address. If nothing else enters with their nodes in its header, what the other one receives is, unchanged
and in that order, what was sent without what was dropped and what is still under way, and it knows the sender by
the address it is given. -/
theorem messages_arrive {b b' : Boot} {env env' : Env} {g g' : Spiffy} {msgs : List (List UInt8)}
    (hsend : Started b env g terminated lines) (hrecv : Started b' env' g' terminated lines)
    (hmap : SharedMap t b.gethostbyname lines) (hconn : t.Connected) (hnodes : t.NodesAtRouters)
    (htables : routingTables t = .ok tables)
    (hreach : (hupsimMachine t tables).Reach (· = initHupsim) Machine.Any h log)
    (hshort : ∀ msg ∈ msgs, msg.length ≤ buflen)
    (hsent : msgs.map (fun msg => spiffySendto g msg (findAddr env env'.identity)) =
      (logged entering t env.identity.toNat env'.identity.toNat log).map fun pkt => .ok (some g.router, pkt)) :
    (∀ msg, ∃ pkt, spiffySendto g msg (findAddr env env'.identity) = .ok (some g.router, pkt) ∧
      OfFlow t env.identity.toNat env'.identity.toNat pkt = true) ∧
    t.nodeKey env'.identity.toNat = findAddr env env'.identity ∧
    btPeerId env' ⟨0, g.srcPort⟩ = env.identity ∧
    ∃ received, received.Sublist msgs ∧
      List.Forall₂ (fun pkt msg => ∀ sender src heap buf, ∃ stack,
        spiffyRecvfrom g' buflen heap (some (sender, pkt)) buf src =
          ((msg.length : Int), (receiveInto stack msg).buf, (⟨0, g.srcPort⟩ : Addr)))
        (logged leaving t env.identity.toNat env'.identity.toNat log) received ∧
      received.length +
          (between t tables env.identity.toNat env'.identity.toNat h 0
            (t.graph.dist env.identity.toNat env'.identity.toNat)).length +
          (logged lost t env.identity.toNat env'.identity.toNat log).length = msgs.length := by
  obtain ⟨head, hsrcAddr, hsrcPort, hbytes⟩ := hsend.sends hrecv hmap
  obtain ⟨hkey, hknown⟩ := hsend.address hrecv hmap
  refine ⟨fun msg => ⟨head.bytes ++ msg, hbytes msg⟩, hkey, hknown, ?_⟩
  have hentered : logged entering t env.identity.toNat env'.identity.toNat log = msgs.map (head.bytes ++ ·) := by
    have hinj : Function.Injective fun pkt : List UInt8 => (Except.ok (some g.router, pkt) : Except Fault _) :=
      fun _ _ heq => (Prod.mk.inj (Except.ok.inj heq)).2
    refine (hinj.list_map ?_).symm
    rw [List.map_map, ← hsent]
    exact List.map_congr_left fun msg _ => ((hbytes msg).1).symm
  obtain ⟨tables', htables', hright⟩ := routingTables_ok hconn
  obtain rfl := Except.ok.inj (htables'.symm.trans htables)
  have hrouter : ∀ {b : Boot} {env : Env} {g : Spiffy}, Started b env g terminated lines →
      env.identity.toNat ∈ t.routers := by
    intro b env g hstarted
    obtain ⟨r, hlast, -⟩ := hstarted.identity
    obtain ⟨hr, hid⟩ := lastRecord_mem hlast
    have hid : r.id.value = env.identity := (hmap.peerId hr).symm.trans (of_decide_eq_true hid)
    rw [← hid]
    exact hnodes _ (hmap.nodes ▸ List.mem_map_of_mem hr)
  obtain ⟨horder, hcount⟩ := (carried hconn hnodes hright hreach).accounts _ (hrouter hsend) _ (hrouter hrecv)
  rw [hentered] at horder hcount
  obtain ⟨received, hreceived, hleaving⟩ := List.sublist_map_iff.mp ((List.sublist_append_left _ _).trans horder)
  refine ⟨received, hreceived, ?_, ?_⟩
  · rw [hleaving, List.forall₂_map_left_iff, List.forall₂_same]
    intro msg hmsg sender src heap buf
    have harrived := spiffyRecvfrom_bytes hrecv.router buflen head msg sender src heap buf
    rwa [hsrcAddr, hsrcPort, List.take_of_length_le (hshort msg (hreceived.subset hmsg))] at harrived
  · rw [hleaving, List.length_map, List.length_map] at hcount
    exact hcount

theorem pairLines_ports : ∀ r ∈ PeerLine.records pairLines, ∀ r' ∈ PeerLine.records pairLines,
    r.sinPort = r'.sinPort → r = r' := by
  have hrecords : PeerLine.records pairLines = [firstRecord, secondRecord] := rfl
  intro r hr r' hr' hport
  rw [hrecords] at hr hr'
  simp only [List.mem_cons, List.not_mem_nil, or_false] at hr hr'
  rcases hr with rfl | rfl <;> rcases hr' with rfl | rfl
  · rfl
  · exact absurd hport (by decide)
  · exact absurd hport (by decide)
  · rfl

theorem messages_arrive_pair :
    btPeerId (pairStart 50).1 ⟨0, (pairStart 49).2.1.srcPort⟩ = (pairStart 49).1.identity ∧
    ∃ received, received.Sublist [[5]] ∧
      List.Forall₂ (fun pkt msg => ∀ sender src heap buf, ∃ stack,
        spiffyRecvfrom (pairStart 50).2.1 buflen heap (some (sender, pkt)) buf src =
          ((msg.length : Int), (receiveInto stack msg).buf, (⟨0, (pairStart 49).2.1.srcPort⟩ : Addr)))
        [pairPacket] received := by
  have hsend : Started (pairBoot 49) (pairStart 49).1 (pairStart 49).2.1 true pairLines :=
    ⟨⟨_, rfl⟩, pairBoot_reads 49, rfl⟩
  have hrecv : Started (pairBoot 50) (pairStart 50).1 (pairStart 50).2.1 true pairLines :=
    ⟨⟨_, rfl⟩, pairBoot_reads 50, rfl⟩
  have hmap : SharedMap pairTopology (pairBoot 49).gethostbyname pairLines :=
    ⟨rfl, by decide, fun r _ => ⟨_, rfl, by decide, by decide⟩, pairLines_ports⟩
  have hshort : ∀ msg ∈ ([[5]] : List (List UInt8)), msg.length ≤ buflen := by decide
  have hid : (pairStart 49).1.identity = 1 ∧ (pairStart 50).1.identity = 2 := by decide +kernel
  have haddr : findAddr (pairStart 49).1 2 = some ⟨localhost, 2⟩ := by decide +kernel
  have hspiffy : (pairStart 49).2.1.nodeID = 1 ∧ (pairStart 49).2.1.srcAddr = 0 ∧ (pairStart 49).2.1.srcPort = 1 := by
    decide +kernel
  have hbytes : SpiffyHeader.bytes ⟨toUnsigned 1, 0, localhost, 1, 2⟩ ++ [5] = pairPacket := by decide +kernel
  have hentered : logged entering pairTopology 1 2 [.entered 1 pairPacket, .delivered 2 pairPacket] = [pairPacket] := by
    decide +kernel
  have hsent : ([[5]] : List (List UInt8)).map (fun msg => spiffySendto (pairStart 49).2.1 msg
      (findAddr (pairStart 49).1 (pairStart 50).1.identity)) =
        (logged entering pairTopology (pairStart 49).1.identity.toNat (pairStart 50).1.identity.toNat
          [.entered 1 pairPacket, .delivered 2 pairPacket]).map fun pkt => .ok (some (pairStart 49).2.1.router, pkt) := by
    rw [hid.1, hid.2, haddr, show (1 : Int).toNat = 1 from rfl, show (2 : Int).toNat = 2 from rfl, hentered]
    simp only [List.map_cons, List.map_nil, spiffySendto, hsend.router, if_true, hspiffy, hbytes]
  obtain ⟨-, -, hknown, received, hsublist, hreceived, -⟩ :=
    messages_arrive hsend hrecv hmap pairTopology_connected pairTopology_nodes rfl pairPacket_run hshort hsent
  have hleaving : logged leaving pairTopology (pairStart 49).1.identity.toNat (pairStart 50).1.identity.toNat
      [.entered 1 pairPacket, .delivered 2 pairPacket] = [pairPacket] := by
    rw [hid.1, hid.2]
    decide +kernel
  rw [hleaving] at hreceived
  exact ⟨hknown, received, hsublist, hreceived⟩

end Bittorrent
