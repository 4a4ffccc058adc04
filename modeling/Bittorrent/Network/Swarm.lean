import Bittorrent.Model.Swarm
import Bittorrent.Network.Messages

/-!
# Messages in a swarm

The programs of a swarm that share a `nodes.map` hear nothing but each other. A datagram at a socket, in the
simulator or on its way there has the header of the program that sent it (`Genuine`), so what is of the flow
between two nodes was said by the one, and what the other hears of it is known to come from there. For each two
nodes the sockets before and behind the simulator and the queues in it are one long queue (`Heard`): what has
come out of it is what was put in, in that order, without what was lost.

The invariant is in two parts, and each step of the swarm is checked against both.

* Nothing is made up: every datagram at a socket, on its way in or in a queue has the header of the program
  that sent it. A program's sends begin so (`OnNetwork.genuine`), and the simulator neither changes a packet
  nor adds one (`hupsim_packets`).
* Nothing is out of order: for each two nodes, what was heard and what waits at the one socket is a sublist
  of what has left the simulator for that node, and what has entered it and what waits to enter is one of
  what the programs have sent. Between the two stands `Carried`.

An iteration of a program appends to the first end (`Heard.run`) and takes from the second
(`Heard.receive`), a step of the simulator moves a packet on (`Heard.simulate`), and a loss makes a sublist
shorter (`Heard.lose`). Reading the chain from one end to the other gives `swarm_hears`.
-/

namespace Bittorrent

open HupsimAction (entering leaving lost)

variable {t : Topology} {tables : Nat → Nat → Option Nat} {node : Nat → Option Node} {lines : List PeerLine}
  {terminated : Bool} {s s' : Swarm} {log l : List SwarmAction} {h h' : Hupsim} {a b v w : Nat} {n : Node}
  {pkt msg : List UInt8}

/-! ## The simulator makes up no packet -/

/-- The packet an action of the simulator is about. -/
def HupsimAction.packet : HupsimAction → List UInt8
  | .entered _ pkt => pkt
  | .delivered _ pkt => pkt
  | .dropped _ pkt => pkt

theorem recv_packets {P : List UInt8 → Prop} {l : List HupsimAction} (hqueues : ∀ v w, ∀ pkt ∈ h.queue v w, P pkt)
    (hpkt : P pkt) (hrecv : h.recv t tables v pkt = .ok (h', l)) :
    (∀ v w, ∀ pkt ∈ h'.queue v w, P pkt) ∧ ∀ a ∈ l, P a.packet := by
  have hone : ∀ a : HupsimAction, a.packet = pkt → ∀ a' ∈ [a], P a'.packet := by
    intro a ha a' hmem
    rw [List.mem_singleton.mp hmem, ha]
    exact hpkt
  unfold Hupsim.recv at hrecv
  split at hrecv
  · cases hrecv
    exact ⟨hqueues, hone _ rfl⟩
  · split_ifs at hrecv
    · cases hrecv
      exact ⟨hqueues, hone _ rfl⟩
    · split at hrecv
      · cases hrecv
      · simp only [Hupsim.enQ] at hrecv
        split_ifs at hrecv
        · cases hrecv
          exact ⟨hqueues, hone _ rfl⟩
        · cases hrecv
          refine ⟨fun v' w' pkt' hmem => ?_, fun a ha => absurd ha List.not_mem_nil⟩
          rw [write_queue] at hmem
          split_ifs at hmem with hboth
          · obtain ⟨rfl, rfl⟩ := hboth
            rcases List.mem_append.mp hmem with hmem | hmem
            · exact hqueues _ _ pkt' hmem
            · rw [List.mem_singleton.mp hmem]
              exact hpkt
          · exact hqueues v' w' pkt' hmem

theorem hupsim_packets {P : List UInt8 → Prop} {e : HupsimEvent} {l : List HupsimAction}
    (hqueues : ∀ v w, ∀ pkt ∈ h.queue v w, P pkt)
    (hinbound : ∀ datagram, e = .inbound datagram → P (datagram.take packetSizeMax))
    (hstep : (hupsimMachine t tables).step e h = .ok (h', l)) :
    (∀ v w, ∀ pkt ∈ h'.queue v w, P pkt) ∧ ∀ a ∈ l, P a.packet := by
  cases e with
  | inbound datagram =>
    have hpkt := hinbound datagram rfl
    by_cases hsource : sourceNode (datagram.take packetSizeMax) ∈ t.routers
    · simp only [hupsimMachine, if_pos hsource] at hstep
      split at hstep
      · cases hstep
      · rename_i h₁ l₁ hrecv
        obtain ⟨rfl, rfl⟩ := Prod.mk.inj (Except.ok.inj hstep)
        obtain ⟨hqueues', hlog⟩ := recv_packets hqueues hpkt hrecv
        exact ⟨hqueues', List.forall_mem_cons.mpr ⟨hpkt, hlog⟩⟩
    · simp only [hupsimMachine, if_neg hsource] at hstep
      obtain ⟨rfl, rfl⟩ := Prod.mk.inj (Except.ok.inj hstep)
      exact ⟨hqueues, fun a ha => absurd ha List.not_mem_nil⟩
  | release v w =>
    rcases hqueue : h.queue v w with _ | ⟨pkt, queue⟩
    · simp only [hupsimMachine, hqueue] at hstep
      obtain ⟨rfl, rfl⟩ := Prod.mk.inj (Except.ok.inj hstep)
      exact ⟨hqueues, fun a ha => absurd ha List.not_mem_nil⟩
    · simp only [hupsimMachine, hqueue] at hstep
      have hpkt : ∀ pkt' ∈ pkt :: queue, P pkt' := hqueue ▸ hqueues v w
      refine recv_packets (fun v' w' pkt' hmem => ?_) (hpkt pkt List.mem_cons_self) hstep
      rw [write_queue] at hmem
      split_ifs at hmem
      · exact hpkt pkt' (List.mem_cons_of_mem pkt hmem)
      · exact hqueues v' w' pkt' hmem

/-! ## Programs that share a network -/

/-- The nodes run programs that have started, with a `nodes.map` that is that of the simulator, each as the peer
that its node is. -/
structure OnNetwork (t : Topology) (tables : Nat → Nat → Option Nat) (node : Nat → Option Node) (terminated : Bool)
    (lines : List PeerLine) : Prop where
  connected : t.Connected
  atRouters : t.NodesAtRouters
  routed : routingTables t = .ok tables
  main : ∀ v n, node v = some n → ∃ b : Boot, b.main = .ok (some (n.env, n.spiffy, n.start)) ∧
    ReadsPeers b terminated lines ∧ SharedMap t b.gethostbyname lines
  router : ∀ v n, node v = some n → n.spiffy.enabled = true
  identity : ∀ v n, node v = some n → n.env.identity = v

namespace OnNetwork

variable (hon : OnNetwork t tables node terminated lines) (hv : node v = some n)

include hon hv

theorem spiffy : v ∈ t.routers ∧ v < 2 ^ 15 ∧ n.spiffy.nodeID = v ∧ n.spiffy.srcAddr = 0 ∧
    n.spiffy.srcPort < 2 ^ 16 := by
  obtain ⟨b, hmain, hreads, hmap⟩ := hon.main v n hv
  obtain ⟨r, hlast, hnodeID, hsrcAddr, hsrcPort⟩ := Started.identity ⟨⟨_, hmain⟩, hreads, hon.router v n hv⟩
  rw [hon.identity v n hv] at hlast hnodeID
  obtain ⟨hr, hid⟩ := lastRecord_mem hlast
  have hid : r.id.value = v := (hmap.peerId hr).symm.trans (of_decide_eq_true hid)
  obtain ⟨-, hlt⟩ := hmap.ids r hr
  have hrouter : (r.nodeLine b.gethostbyname).node ∈ t.routers :=
    hon.atRouters _ (hmap.nodes ▸ List.mem_map_of_mem hr)
  rw [PeerRecord.nodeLine, hid] at hrouter
  refine ⟨hrouter, by omega, hnodeID, hsrcAddr, ?_⟩
  rw [hsrcPort, PeerRecord.sinPort]
  omega

theorem known {w : Nat} {n' : Node} (hw : node w = some n') : btPeerId n'.env ⟨0, n.spiffy.srcPort⟩ = v := by
  obtain ⟨b, hmain, hreads, hmap⟩ := hon.main v n hv
  obtain ⟨b', hmain', hreads', -⟩ := hon.main w n' hw
  have hsend : Started b n.env n.spiffy terminated lines := ⟨⟨_, hmain⟩, hreads, hon.router v n hv⟩
  have hrecv : Started b' n'.env n'.spiffy terminated lines := ⟨⟨_, hmain'⟩, hreads', hon.router w n' hw⟩
  rw [(hsend.address hrecv hmap).2, hon.identity v n hv]

end OnNetwork

/-! ## Genuine datagrams -/

/-- A datagram of the program of a node, or the first part of one. -/
def Genuine (node : Nat → Option Node) (v : Nat) (pkt : List UInt8) : Prop :=
  ∃ n head msg, node v = some n ∧ pkt = SpiffyHeader.bytes head ++ msg ∧ head.onWire.id = v ∧
    head.onWire.srcAddr = 0 ∧ head.onWire.srcPort = n.spiffy.srcPort

/-- The message in a datagram, as far as a program has room for it. -/
def messageOf (pkt : List UInt8) : List UInt8 := (pkt.drop spiffyHeaderSize).take buflen

theorem messageOf_bytes (head : SpiffyHeader) (msg : List UInt8) : messageOf (head.bytes ++ msg) = msg.take buflen := by
  rw [messageOf, ← head.bytes_length, List.drop_left]

theorem take_bytes (head : SpiffyHeader) (msg : List UInt8) :
    (head.bytes ++ msg).take packetSizeMax = head.bytes ++ msg.take (packetSizeMax - spiffyHeaderSize) := by
  rw [List.take_append, head.bytes_length, List.take_of_length_le]
  rw [head.bytes_length]
  decide

theorem Genuine.sourceNode (hgenuine : Genuine node v pkt) : sourceNode pkt = v := by
  obtain ⟨n, head, msg, -, rfl, hid, -⟩ := hgenuine
  exact (unpack_bytes head msg).1.trans hid

theorem OnNetwork.genuine (hon : OnNetwork t tables node terminated lines) (hv : node v = some n)
    {dst to' : Option Addr} {datagram : List UInt8} (hsend : spiffySendto n.spiffy msg dst = .ok (to', datagram)) :
    Genuine node v (datagram.take packetSizeMax) ∧ messageOf (datagram.take packetSizeMax) = msg.take buflen := by
  obtain ⟨-, hlt, hnodeID, hsrcAddr, hsrcPort⟩ := hon.spiffy hv
  unfold spiffySendto at hsend
  rw [if_pos (hon.router v n hv)] at hsend
  split at hsend
  · cases hsend
  · obtain ⟨-, rfl⟩ := Prod.mk.inj (Except.ok.inj hsend)
    rw [take_bytes, messageOf_bytes, List.take_take]
    refine ⟨⟨n, _, _, hv, rfl, ?_, ?_, ?_⟩, rfl⟩
    · rw [hnodeID]
      have hid : toUnsigned (v : Int) = v := by
        rw [toUnsigned]
        omega
      exact (congrArg (· % 2 ^ 32) hid).trans (Nat.mod_eq_of_lt (by omega))
    · exact congrArg (· % 2 ^ 32) hsrcAddr
    · exact Nat.mod_eq_of_lt hsrcPort

/-- The node that the simulator finds at an address. -/
def addressNode (t : Topology) (dst : Addr) : Option Nat :=
  t.node (if dst.sinAddr % 2 ^ 32 = 0 then localhost else dst.sinAddr % 2 ^ 32) (dst.sinPort % 2 ^ 16)

theorem OnNetwork.destNode (hon : OnNetwork t tables node terminated lines) (hv : node v = some n)
    {dst to' : Option Addr} {datagram : List UInt8} (hsend : spiffySendto n.spiffy msg dst = .ok (to', datagram)) :
    destNode t (datagram.take packetSizeMax) = dst.bind (addressNode t) := by
  unfold spiffySendto at hsend
  rw [if_pos (hon.router v n hv)] at hsend
  split at hsend
  · cases hsend
  · rename_i dst
    obtain ⟨-, rfl⟩ := Prod.mk.inj (Except.ok.inj hsend)
    obtain ⟨-, hdest, hdestPort⟩ := unpack_bytes
      ⟨toUnsigned n.spiffy.nodeID, n.spiffy.srcAddr, dst.sinAddr, n.spiffy.srcPort, dst.sinPort⟩
      (msg.take (packetSizeMax - spiffyHeaderSize))
    simp only [take_bytes, Bittorrent.destNode, hdest, hdestPort]
    rfl

theorem Genuine.receive {n' : Node} (hgenuine : Genuine node v pkt) (henabled : n'.spiffy.enabled = true)
    (receipt : Receipt) : ∃ n buf, node v = some n ∧
      n'.recv receipt pkt = (((messageOf pkt).length : Int), buf, (⟨0, n.spiffy.srcPort⟩ : Addr)) ∧
      readBytes buf 0 (messageOf pkt).length = messageOf pkt := by
  obtain ⟨n, head, msg, hv, rfl, -, hsrcAddr, hsrcPort⟩ := hgenuine
  obtain ⟨stack, hrecv⟩ := spiffyRecvfrom_bytes henabled buflen head msg receipt.sender receipt.src
    receipt.heap receipt.buf
  rw [hsrcAddr, hsrcPort] at hrecv
  rw [messageOf_bytes]
  refine ⟨n, _, hv, hrecv, ?_⟩
  refine List.ext_getElem (readBytes_length _ _ _) fun k hk hk' => ?_
  simp only [readBytes, List.getElem_map, List.getElem_range, receiveInto, Nat.zero_add, List.getD_eq_getElem _ _ hk']

/-! ## What the log says -/

/-- What the simulator did. -/
def netLog (log : List SwarmAction) : List HupsimAction :=
  log.filterMap fun
    | .carried action => some action
    | _ => none

/-- What a program did. -/
def programAction (v : Nat) : SwarmAction → Option ((Nat × StreamAction) ⊕ DownloadAction)
  | .acted w action => if w = v then some action else none
  | _ => none

def programLog (v : Nat) (log : List SwarmAction) : PeerLog := log.filterMap (programAction v)

/-- What the programs sent, as the simulator reads it. -/
def sentPackets (log : List SwarmAction) : List (List UInt8) :=
  log.filterMap fun
    | .sent _ datagram => some (datagram.take packetSizeMax)
    | _ => none

/-- The messages that a program sends to an address at which the simulator finds `b`. -/
def messagesFor (t : Topology) (env : Env) (b : Nat) (actions : PeerLog) : List (List UInt8) :=
  (actions.filterMap (handsOver env)).filterMap fun s =>
    if s.1.bind (addressNode t) = some b then some s.2 else none

/-- The messages that the program of `b` received from an address by which it knows `a`. -/
def heard (env : Env) (a b : Nat) (log : List SwarmAction) : List (List UInt8) :=
  log.filterMap fun
    | .heard v src msg => if v = b ∧ btPeerId env src = a then some msg else none
    | _ => none

/-- The invariant of a swarm. -/
structure Heard (t : Topology) (tables : Nat → Nat → Option Nat) (node : Nat → Option Node) (s : Swarm)
    (log : List SwarmAction) : Prop where
  carried : Carried t tables s.net (netLog log)
  inbound : ∀ datagram ∈ s.inbound, ∃ a, Genuine node a (datagram.take packetSizeMax)
  queued : ∀ v w, ∀ pkt ∈ s.net.queue v w, ∃ a, Genuine node a pkt
  socket : ∀ v, ∀ pkt ∈ s.socket v, (∃ a, Genuine node a pkt) ∧ destNode t pkt = some v
  known : ∀ b src msg, .heard b src msg ∈ log → ∃ n a, node b = some n ∧ (∃ n', node a = some n') ∧
    btPeerId n.env src = a
  sent : ∀ a b n, node a = some n → ((sentPackets log).filter (OfFlow t a b)).map messageOf =
    (messagesFor t n.env b (programLog a log)).map (List.take buflen)
  entered : ∀ a b, (logged entering t a b (netLog log) ++
    (s.inbound.map (List.take packetSizeMax)).filter (OfFlow t a b)).Sublist ((sentPackets log).filter (OfFlow t a b))
  left : ∀ a b n, node b = some n → (heard n.env a b log ++
    ((s.socket b).filter (OfFlow t a b)).map messageOf).Sublist ((logged leaving t a b (netLog log)).map messageOf)

/-! ## An iteration -/

theorem send_datagrams {sends : List (Option Addr × List UInt8)} {sent : List (List UInt8)}
    (hsend : n.send sends = .ok sent) :
    List.Forall₂ (fun s datagram => ∃ to', spiffySendto n.spiffy s.2 s.1 = .ok (to', datagram)) sends sent := by
  induction sends generalizing sent with
  | nil =>
    cases hsend
    exact .nil
  | cons first sends ih =>
    obtain ⟨dst, msg⟩ := first
    unfold Node.send at hsend
    split at hsend
    · cases hsend
    · rename_i to' datagram hfirst
      split at hsend
      · cases hsend
      · rename_i rest hrest
        cases hsend
        exact .cons ⟨to', hfirst⟩ (ih hrest)

/-- What an iteration logs, but for the datagram it received. -/
def iterated (v : Nat) (actions : List ((Nat × StreamAction) ⊕ DownloadAction)) (sent : List (List UInt8)) :
    List SwarmAction :=
  actions.map (.acted v) ++ sent.map (.sent v)

theorem run_ok {input : Input} (hrun : s.run n v input = .ok (s', l)) :
    ∃ p actions sent, (programMachine n.env).step input (s.program v) = .ok (p, actions) ∧
      n.send (actions.filterMap (handsOver n.env)) = .ok sent ∧
      s' = { s with program := Function.update s.program v p, inbound := s.inbound ++ sent } ∧
      l = iterated v actions sent := by
  unfold Swarm.run at hrun
  split at hrun
  · cases hrun
  · rename_i p actions hiterate
    split at hrun
    · cases hrun
    · rename_i sent hsend
      cases hrun
      exact ⟨p, actions, sent, hiterate, hsend, rfl, rfl⟩

section

variable {actions : List ((Nat × StreamAction) ⊕ DownloadAction)} {sent : List (List UInt8)} {env : Env}

theorem netLog_iterated : netLog (iterated v actions sent) = [] := by
  simp [netLog, iterated, List.filterMap_map]

theorem programLog_iterated : programLog w (iterated v actions sent) = if v = w then actions else [] := by
  by_cases hv : v = w <;> simp [programLog, programAction, iterated, List.filterMap_map, Function.comp_def, hv]

theorem sentPackets_iterated :
    sentPackets (iterated v actions sent) = sent.map (List.take packetSizeMax) := by
  simp [sentPackets, iterated, List.filterMap_map]

theorem heard_iterated : heard env a b (iterated v actions sent) = [] := by
  simp [heard, iterated, List.filterMap_map]

theorem not_heard_iterated {b : Nat} {src : Addr} : .heard b src msg ∉ iterated v actions sent := by
  simp [iterated]

theorem messages_iterated (hon : OnNetwork t tables node terminated lines) (hv : node v = some n)
    (hsent : List.Forall₂ (fun s datagram => ∃ to', spiffySendto n.spiffy s.2 s.1 = .ok (to', datagram))
      (actions.filterMap (handsOver n.env)) sent) :
    ((sentPackets (iterated v actions sent)).filter (OfFlow t a b)).map messageOf =
      if v = a then (messagesFor t n.env b actions).map (List.take buflen) else [] := by
  rw [sentPackets_iterated, messagesFor]
  generalize actions.filterMap (handsOver n.env) = sends at hsent
  induction hsent with
  | nil => exact (ite_self _).symm
  | @cons s datagram sends sent hfirst hrest ih =>
    obtain ⟨to', hsend⟩ := hfirst
    obtain ⟨hgenuine, hmessage⟩ := hon.genuine hv hsend
    have hdest := hon.destNode hv hsend
    have hof : OfFlow t a b (datagram.take packetSizeMax) = true ↔ v = a ∧ s.1.bind (addressNode t) = some b := by
      rw [ofFlow_iff, hgenuine.sourceNode, hdest]
    rw [List.map_cons, List.filter_cons, List.filterMap_cons]
    by_cases hva : v = a
    · rw [if_pos hva] at ih ⊢
      by_cases haddress : s.1.bind (addressNode t) = some b
      · rw [if_pos (hof.mpr ⟨hva, haddress⟩), if_pos haddress, List.map_cons, List.map_cons, hmessage, ih]
      · rw [if_neg fun h => haddress (hof.mp h).2, if_neg haddress, ih]
    · rw [if_neg hva] at ih ⊢
      rw [if_neg fun h => hva (hof.mp h).1, ih]

end

section

variable {log' : List SwarmAction}

theorem netLog_append : netLog (log ++ log') = netLog log ++ netLog log' := List.filterMap_append

theorem programLog_append : programLog v (log ++ log') = programLog v log ++ programLog v log' := List.filterMap_append

theorem sentPackets_append : sentPackets (log ++ log') = sentPackets log ++ sentPackets log' := List.filterMap_append

theorem messagesFor_append {env : Env} {actions actions' : PeerLog} :
    messagesFor t env b (actions ++ actions') = messagesFor t env b actions ++ messagesFor t env b actions' := by
  rw [messagesFor, List.filterMap_append, List.filterMap_append]
  rfl

theorem heard_append {env : Env} : heard env a b (log ++ log') = heard env a b log ++ heard env a b log' :=
  List.filterMap_append

end

theorem Heard.run (hon : OnNetwork t tables node terminated lines) (hheard : Heard t tables node s log)
    (hv : node v = some n) {input : Input} (hrun : s.run n v input = .ok (s', l)) : Heard t tables node s' (log ++ l) := by
  obtain ⟨p, actions, sent, -, hsend, rfl, rfl⟩ := run_ok hrun
  have hsent := send_datagrams hsend
  obtain ⟨hcarried, hinbound, hqueued, hsocket, hknown, hsaid, hentered, hleft⟩ := hheard
  have hnet : netLog (log ++ iterated v actions sent) = netLog log := by
    rw [netLog_append, netLog_iterated, List.append_nil]
  refine ⟨hnet ▸ hcarried, fun datagram hmem => ?_, hqueued, hsocket, fun b src msg hmem => ?_, fun a b n' ha => ?_,
    fun a b => ?_, fun a b n' hb => ?_⟩
  · rcases List.mem_append.mp hmem with hmem | hmem
    · exact hinbound datagram hmem
    · obtain ⟨i, hi, rfl⟩ := List.mem_iff_getElem.mp hmem
      obtain ⟨to', hsend⟩ := hsent.get (hsent.length_eq ▸ hi) hi
      exact ⟨v, (hon.genuine hv hsend).1⟩
  · exact hknown b src msg ((List.mem_append.mp hmem).resolve_right not_heard_iterated)
  · rw [sentPackets_append, List.filter_append, List.map_append, hsaid a b n' ha, messages_iterated hon hv hsent,
      programLog_append, programLog_iterated]
    by_cases hva : v = a
    · subst hva
      obtain rfl := Option.some.inj (hv.symm.trans ha)
      rw [if_pos rfl, if_pos rfl, messagesFor_append, List.map_append]
    · rw [if_neg hva, if_neg hva, List.append_nil, List.append_nil]
  · rw [hnet, sentPackets_append, sentPackets_iterated, List.map_append, List.filter_append, List.filter_append,
      ← List.append_assoc]
    exact (hentered a b).append (List.Sublist.refl _)
  · rw [hnet, heard_append, heard_iterated, List.append_nil]
    exact hleft a b n' hb

theorem Heard.receive (hon : OnNetwork t tables node terminated lines) (hheard : Heard t tables node s log)
    (hv : node v = some n) {rest : List (List UInt8)} (hsocket : s.socket v = pkt :: rest) (receipt : Receipt) :
    ∃ buf src, n.recv receipt pkt = (((messageOf pkt).length : Int), buf, src) ∧
      readBytes buf 0 (messageOf pkt).length = messageOf pkt ∧
      Heard t tables node { s with socket := Function.update s.socket v rest }
        (log ++ [.heard v src (messageOf pkt)]) := by
  obtain ⟨⟨a, hgenuine⟩, hdest⟩ := hheard.socket v pkt (hsocket ▸ List.mem_cons_self)
  obtain ⟨n', buf, ha, hrecv, hread⟩ := hgenuine.receive (hon.router v n hv) receipt
  have hknows : btPeerId n.env ⟨0, n'.spiffy.srcPort⟩ = a := hon.known ha hv
  refine ⟨buf, ⟨0, n'.spiffy.srcPort⟩, hrecv, hread, ?_⟩
  have hnet : netLog (log ++ [.heard v ⟨0, n'.spiffy.srcPort⟩ (messageOf pkt)]) = netLog log := by
    rw [netLog_append]
    exact List.append_nil _
  have hsent : sentPackets (log ++ [.heard v ⟨0, n'.spiffy.srcPort⟩ (messageOf pkt)]) = sentPackets log := by
    rw [sentPackets_append]
    exact List.append_nil _
  have hprogram : ∀ a, programLog a (log ++ [.heard v ⟨0, n'.spiffy.srcPort⟩ (messageOf pkt)]) = programLog a log := by
    intro a
    rw [programLog_append]
    exact List.append_nil _
  refine ⟨hnet ▸ hheard.carried, hheard.inbound, hheard.queued, fun w pkt' hmem => ?_, fun b src msg hmem => ?_,
    fun a b n'' ha => ?_, fun a b => ?_, fun a' b n'' hb => ?_⟩
  · refine hheard.socket w pkt' ?_
    dsimp only at hmem
    by_cases hw : w = v
    · subst hw
      rw [Function.update_self] at hmem
      exact hsocket ▸ List.mem_cons_of_mem pkt hmem
    · rwa [Function.update_of_ne hw] at hmem
  · rcases List.mem_append.mp hmem with hmem | hmem
    · exact hheard.known b src msg hmem
    · obtain ⟨rfl, rfl, -⟩ := SwarmAction.heard.inj (List.mem_singleton.mp hmem)
      exact ⟨n, a, hv, ⟨n', ha⟩, hknows⟩
  · rw [hsent, hprogram]
    exact hheard.sent a b n'' ha
  · rw [hnet, hsent]
    exact hheard.entered a b
  · rw [hnet, heard_append]
    have hbefore := hheard.left a' b n'' hb
    dsimp only
    by_cases hw : b = v
    · subst hw
      obtain rfl := Option.some.inj (hb.symm.trans hv)
      rw [hsocket] at hbefore
      rw [Function.update_self]
      by_cases ha' : a = a'
      · subst ha'
        have hof : OfFlow t a b pkt = true := ofFlow_iff.mpr ⟨hgenuine.sourceNode, hdest⟩
        have hone : heard n''.env a b [.heard b ⟨0, n'.spiffy.srcPort⟩ (messageOf pkt)] = [messageOf pkt] := by
          simp [heard, hknows]
        rw [List.filter_cons_of_pos hof, List.map_cons] at hbefore
        rw [hone, List.append_assoc]
        exact hbefore
      · have hof : ¬ OfFlow t a' b pkt = true := fun hof =>
          ha' (hgenuine.sourceNode.symm.trans (ofFlow_iff.mp hof).1)
        have hnone : heard n''.env a' b [.heard b ⟨0, n'.spiffy.srcPort⟩ (messageOf pkt)] = [] := by
          simp [heard, hknows, ha']
        rw [List.filter_cons_of_neg hof] at hbefore
        rwa [hnone, List.append_nil]
    · have hnone : heard n''.env a' b [.heard v ⟨0, n'.spiffy.srcPort⟩ (messageOf pkt)] = [] := by
        simp [heard, Ne.symm hw]
      rwa [hnone, List.append_nil, Function.update_of_ne hw]

/-! ## The simulator and the sockets -/

theorem step_entering {e : HupsimEvent} {l : List HupsimAction} (hstep : (hupsimMachine t tables).step e h = .ok (h', l)) :
    (l.filterMap entering).Sublist (match e with
      | .inbound datagram => [datagram.take packetSizeMax]
      | .release _ _ => []) := by
  cases e with
  | inbound datagram =>
    by_cases hsource : sourceNode (datagram.take packetSizeMax) ∈ t.routers
    · simp only [hupsimMachine, if_pos hsource] at hstep
      split at hstep
      · cases hstep
      · rename_i h₁ l₁ hrecv
        obtain ⟨rfl, rfl⟩ := Prod.mk.inj (Except.ok.inj hstep)
        simp only [List.filterMap_cons, entering, recv_entering hrecv]
        exact List.Sublist.refl _
    · simp only [hupsimMachine, if_neg hsource] at hstep
      obtain ⟨-, rfl⟩ := Prod.mk.inj (Except.ok.inj hstep)
      exact List.nil_sublist _
  | release v w =>
    rcases hqueue : h.queue v w with _ | ⟨pkt, queue⟩
    · simp only [hupsimMachine, hqueue] at hstep
      obtain ⟨-, rfl⟩ := Prod.mk.inj (Except.ok.inj hstep)
      exact List.Sublist.refl _
    · simp only [hupsimMachine, hqueue] at hstep
      rw [recv_entering hstep]

section

variable {sockets : Nat → List (List UInt8)} {actions : List HupsimAction}

theorem mem_deliver (hmem : pkt ∈ deliver sockets actions v) : pkt ∈ sockets v ∨ .delivered v pkt ∈ actions := by
  induction actions generalizing sockets with
  | nil => exact Or.inl hmem
  | cons action actions ih =>
    cases action with
    | delivered w pkt' =>
      rw [deliver] at hmem
      rcases ih hmem with hmem | hmem
      · by_cases hw : v = w
        · subst hw
          rw [Function.update_self] at hmem
          rcases List.mem_append.mp hmem with hmem | hmem
          · exact Or.inl hmem
          · rw [List.mem_singleton.mp hmem]
            exact Or.inr List.mem_cons_self
        · rw [Function.update_of_ne hw] at hmem
          exact Or.inl hmem
      · exact Or.inr (List.mem_cons_of_mem _ hmem)
    | entered w pkt' => exact (ih hmem).imp_right (List.mem_cons_of_mem _)
    | dropped w pkt' => exact (ih hmem).imp_right (List.mem_cons_of_mem _)

theorem deliver_flow (harrived : ∀ v pkt, .delivered v pkt ∈ actions → destNode t pkt = some v) :
    (deliver sockets actions b).filter (OfFlow t a b) =
      (sockets b).filter (OfFlow t a b) ++ logged leaving t a b actions := by
  induction actions generalizing sockets with
  | nil => exact (List.append_nil _).symm
  | cons action actions ih =>
    have hrest : ∀ sockets : Nat → List (List UInt8), (deliver sockets actions b).filter (OfFlow t a b) =
        (sockets b).filter (OfFlow t a b) ++ logged leaving t a b actions :=
      fun _ => ih fun v pkt hmem => harrived v pkt (List.mem_cons_of_mem _ hmem)
    cases action with
    | delivered w pkt' =>
      have hdest := harrived w pkt' List.mem_cons_self
      have hlogged : logged leaving t a b (.delivered w pkt' :: actions) =
          [pkt'].filter (OfFlow t a b) ++ logged leaving t a b actions := by
        rw [← List.singleton_append, logged_append]
        rfl
      rw [deliver, hrest, hlogged, ← List.append_assoc]
      congr 1
      by_cases hw : b = w
      · subst hw
        rw [Function.update_self, List.filter_append]
      · have hof : ¬ OfFlow t a b pkt' = true := fun hof =>
          hw (Option.some.inj ((ofFlow_iff.mp hof).2.symm.trans hdest))
        rw [Function.update_of_ne hw, List.filter_cons_of_neg hof, List.filter_nil, List.append_nil]
    | entered w pkt' => exact hrest sockets
    | dropped w pkt' => exact hrest sockets

end

section

variable {actions : List HupsimAction} {env : Env}

theorem netLog_carried : netLog (actions.map .carried) = actions := by
  simp [netLog, List.filterMap_map]

theorem sentPackets_carried : sentPackets (actions.map .carried) = [] := by
  simp [sentPackets, List.filterMap_map]

theorem heard_carried : heard env a b (actions.map .carried) = [] := by
  simp [heard, List.filterMap_map]

theorem programLog_carried : programLog v (actions.map .carried) = [] := by
  simp [programLog, programAction, List.filterMap_map, Function.comp_def]

end

theorem Heard.simulate (hon : OnNetwork t tables node terminated lines) (hheard : Heard t tables node s log)
    {e : HupsimEvent} {rest : List (List UInt8)}
    (hevent : s.inbound = (match e with
      | .inbound datagram => [datagram]
      | .release _ _ => []) ++ rest)
    (hsim : { s with inbound := rest }.simulate t tables e = .ok (s', l)) : Heard t tables node s' (log ++ l) := by
  obtain ⟨tables', htables', hright⟩ := routingTables_ok hon.connected
  obtain rfl := Except.ok.inj (htables'.symm.trans hon.routed)
  obtain ⟨hcarried, hinbound, hqueued, hsocket, hknown, hsaid, hentered, hleft⟩ := hheard
  unfold Swarm.simulate at hsim
  split at hsim
  · cases hsim
  rename_i net actions hstep
  have hcarried' := hcarried.step hon.connected hon.atRouters hright hstep
  obtain ⟨rfl, rfl⟩ := Prod.mk.inj (Except.ok.inj hsim)
  have harrived : ∀ v pkt, .delivered v pkt ∈ actions → destNode t pkt = some v := fun v pkt hmem =>
    hcarried'.arrived v pkt (List.mem_append_right _ hmem)
  obtain ⟨hqueued', hpackets⟩ := hupsim_packets (P := fun pkt => ∃ a, Genuine node a pkt) hqueued (by
    rintro datagram rfl
    exact hinbound datagram (hevent ▸ List.mem_cons_self)) hstep
  have hnet : netLog (log ++ actions.map .carried) = netLog log ++ actions := by rw [netLog_append, netLog_carried]
  have hsent : sentPackets (log ++ actions.map .carried) = sentPackets log := by
    rw [sentPackets_append, sentPackets_carried, List.append_nil]
  refine ⟨hnet ▸ hcarried', fun datagram hmem => hinbound datagram (hevent ▸ List.mem_append_right _ hmem), hqueued',
    fun v pkt hmem => ?_, fun b src msg hmem => ?_, fun a b n ha => ?_, fun a b => ?_, fun a b n hb => ?_⟩
  · rcases mem_deliver hmem with hmem | hmem
    · exact hsocket v pkt hmem
    · exact ⟨hpackets _ hmem, harrived v pkt hmem⟩
  · exact hknown b src msg ((List.mem_append.mp hmem).resolve_right (by simp))
  · rw [hsent, programLog_append, programLog_carried, List.append_nil]
    exact hsaid a b n ha
  · rw [hnet, hsent, logged_append, List.append_assoc]
    refine List.Sublist.trans ?_ (hentered a b)
    rw [hevent, List.map_append, List.filter_append]
    refine (List.Sublist.refl _).append (List.Sublist.append ?_ (List.Sublist.refl _))
    have henter := (step_entering hstep).filter (OfFlow t a b)
    cases e with
    | inbound datagram => exact henter
    | release v w => exact henter
  · rw [hnet, heard_append, heard_carried, List.append_nil, logged_append, List.map_append]
    dsimp only
    rw [deliver_flow harrived, List.map_append, ← List.append_assoc]
    exact (hleft a b n hb).append (List.Sublist.refl _)

theorem Heard.lose (hheard : Heard t tables node s log) {inbound : List (List UInt8)}
    {socket : Nat → List (List UInt8)} (hinbound : inbound.Sublist s.inbound)
    (hsocket : ∀ v, (socket v).Sublist (s.socket v)) :
    Heard t tables node { s with inbound := inbound, socket := socket } log := by
  refine ⟨hheard.carried, fun datagram hmem => hheard.inbound datagram (hinbound.subset hmem), hheard.queued,
    fun v pkt hmem => hheard.socket v pkt ((hsocket v).subset hmem), hheard.known, hheard.sent, fun a b => ?_,
    fun a b n hb => ?_⟩
  · exact ((List.Sublist.refl _).append ((hinbound.map _).filter _)).trans (hheard.entered a b)
  · exact ((List.Sublist.refl _).append (((hsocket b).filter _).map _)).trans (hheard.left a b n hb)

/-! ## Runs -/

theorem Heard.step (hon : OnNetwork t tables node terminated lines) (hheard : Heard t tables node s log) {e : SwarmEvent}
    (hstep : (swarmMachine t tables node).step e s = .ok (s', l)) : Heard t tables node s' (log ++ l) := by
  cases e with
  | iterate v receipt input =>
    rcases hv : node v with _ | n
    · simp only [swarmMachine, hv] at hstep
      obtain ⟨rfl, rfl⟩ := Prod.mk.inj (Except.ok.inj hstep)
      rwa [List.append_nil]
    · cases receipt with
      | none =>
        simp only [swarmMachine, hv] at hstep
        exact hheard.run hon hv hstep
      | some receipt =>
        simp only [swarmMachine, hv, Swarm.receive] at hstep
        rcases hsocket : s.socket v with _ | ⟨pkt, rest⟩
        · simp only [hsocket] at hstep
          exact hheard.run hon hv hstep
        · obtain ⟨buf, src, hrecv, hread, hheard'⟩ := hheard.receive hon hv hsocket receipt
          simp only [hsocket, hrecv, Int.toNat_natCast, hread] at hstep
          split at hstep
          · cases hstep
          · rename_i s₁ l₁ hrun
            obtain ⟨rfl, rfl⟩ := Prod.mk.inj (Except.ok.inj hstep)
            have hafter := hheard'.run hon hv hrun
            rwa [List.append_assoc] at hafter
  | enter =>
    rcases hinbound : s.inbound with _ | ⟨datagram, rest⟩
    · simp only [swarmMachine, hinbound] at hstep
      obtain ⟨rfl, rfl⟩ := Prod.mk.inj (Except.ok.inj hstep)
      rwa [List.append_nil]
    · simp only [swarmMachine, hinbound] at hstep
      exact hheard.simulate hon (e := .inbound datagram) hinbound hstep
  | release v w =>
    simp only [swarmMachine] at hstep
    exact hheard.simulate hon (e := .release v w) rfl hstep
  | lostInbound =>
    simp only [swarmMachine] at hstep
    obtain ⟨rfl, rfl⟩ := Prod.mk.inj (Except.ok.inj hstep)
    rw [List.append_nil]
    exact hheard.lose (List.tail_sublist _) fun _ => List.Sublist.refl _
  | lostAt v =>
    simp only [swarmMachine] at hstep
    obtain ⟨rfl, rfl⟩ := Prod.mk.inj (Except.ok.inj hstep)
    rw [List.append_nil]
    refine hheard.lose (List.Sublist.refl _) fun w => ?_
    by_cases hw : w = v
    · subst hw
      rw [Function.update_self]
      exact List.tail_sublist _
    · rw [Function.update_of_ne hw]

theorem Heard.hears (hon : OnNetwork t tables node terminated lines) (hheard : Heard t tables node s log) {n' : Node}
    (ha : node a = some n) (hb : node b = some n') :
    (heard n'.env a b log).Sublist ((messagesFor t n.env b (programLog a log)).map (List.take buflen)) := by
  have horder := (hheard.carried.accounts a (hon.spiffy ha).1 b (hon.spiffy hb).1).order
  have hpackets : (logged leaving t a b (netLog log)).Sublist ((sentPackets log).filter (OfFlow t a b)) :=
    ((List.sublist_append_left _ _).trans horder).trans ((List.sublist_append_left _ _).trans (hheard.entered a b))
  rw [← hheard.sent a b n ha]
  exact ((List.sublist_append_left _ _).trans (hheard.left a b n' hb)).trans (hpackets.map _)

theorem heard_init (hstarts : s.Starts node) : Heard t tables node s [] := by
  obtain ⟨-, hnet, hinbound, hsocket⟩ := hstarts
  refine ⟨hnet ▸ carried_init, fun datagram hmem => ?_, fun v w pkt hmem => ?_, fun v pkt hmem => ?_,
    fun b src msg hmem => absurd hmem List.not_mem_nil, fun a b n ha => rfl, fun a b => ?_, fun a b n hb => ?_⟩
  · rw [hinbound] at hmem
    exact absurd hmem List.not_mem_nil
  · rw [hnet] at hmem
    exact absurd hmem List.not_mem_nil
  · rw [hsocket] at hmem
    exact absurd hmem List.not_mem_nil
  · rw [hinbound]
    exact List.Sublist.refl _
  · rw [hsocket]
    exact List.Sublist.refl _

theorem heard_reach (hon : OnNetwork t tables node terminated lines)
    (hreach : (swarmMachine t tables node).Reach (Swarm.Starts node) Machine.Any s log) : Heard t tables node s log :=
  hreach.invariant (fun _ hs => heard_init hs) fun _ _ _ _ _ _ hheard _ hstep => hheard.step hon hstep

/-- The iteration reads no datagram, or the first one at the socket of its node. -/
def ReadsSocket (n : Node) (socket : List (List UInt8)) (input : Input) : Prop :=
  input.datagram = none ∨ ∃ pkt rest receipt, socket = pkt :: rest ∧
    input.datagram = some ((n.recv receipt pkt).2.2, (n.recv receipt pkt).2.1, [], receipt.clk)

theorem program_step {e : SwarmEvent} (hv : node v = some n)
    (hstep : (swarmMachine t tables node).step e s = .ok (s', l)) :
    (s'.program v = s.program v ∧ programLog v l = []) ∨ ∃ input, ReadsSocket n (s.socket v) input ∧
      (programMachine n.env).step input (s.program v) = .ok (s'.program v, programLog v l) := by
  have hrun : ∀ {s s' : Swarm} {l : List SwarmAction} {w : Nat} {n' : Node} {input : Input} {socket : List (List UInt8)},
      node w = some n' → (w = v → ReadsSocket n' socket input) → s.run n' w input = .ok (s', l) →
        (s'.program v = s.program v ∧ programLog v l = []) ∨ ∃ input, ReadsSocket n socket input ∧
          (programMachine n.env).step input (s.program v) = .ok (s'.program v, programLog v l) := by
    intro s s' l w n' input socket hw hreads hrun
    obtain ⟨p, actions, sent, hprogram, -, rfl, rfl⟩ := run_ok hrun
    dsimp only
    rw [programLog_iterated]
    by_cases hvw : w = v
    · subst hvw
      obtain rfl := Option.some.inj (hw.symm.trans hv)
      rw [Function.update_self, if_pos rfl]
      exact Or.inr ⟨input, hreads rfl, hprogram⟩
    · rw [Function.update_of_ne (Ne.symm hvw), if_neg hvw]
      exact Or.inl ⟨rfl, rfl⟩
  have hsim : ∀ {s s' : Swarm} {l : List SwarmAction} {e : HupsimEvent}, s.simulate t tables e = .ok (s', l) →
      s'.program v = s.program v ∧ programLog v l = [] := by
    intro s s' l e hsim
    unfold Swarm.simulate at hsim
    split at hsim
    · cases hsim
    · obtain ⟨rfl, rfl⟩ := Prod.mk.inj (Except.ok.inj hsim)
      exact ⟨rfl, programLog_carried⟩
  cases e with
  | iterate w receipt input =>
    rcases hw : node w with _ | n'
    · simp only [swarmMachine, hw] at hstep
      obtain ⟨rfl, rfl⟩ := Prod.mk.inj (Except.ok.inj hstep)
      exact Or.inl ⟨rfl, rfl⟩
    · cases receipt with
      | none =>
        simp only [swarmMachine, hw] at hstep
        exact hrun hw (fun _ => Or.inl rfl) hstep
      | some receipt =>
        simp only [swarmMachine, hw, Swarm.receive] at hstep
        split at hstep
        · exact hrun hw (fun _ => Or.inl rfl) hstep
        · rename_i pkt rest hsocket
          split at hstep
          · cases hstep
          · rename_i s₁ l₁ hrun'
            obtain ⟨rfl, rfl⟩ := Prod.mk.inj (Except.ok.inj hstep)
            have hafter := hrun hw (fun hvw => Or.inr ⟨pkt, rest, receipt, hvw ▸ hsocket, rfl⟩) hrun'
            exact hafter
  | enter =>
    simp only [swarmMachine] at hstep
    split at hstep
    · obtain ⟨rfl, rfl⟩ := Prod.mk.inj (Except.ok.inj hstep)
      exact Or.inl ⟨rfl, rfl⟩
    · have hafter := hsim hstep
      exact Or.inl hafter
  | release w w' =>
    simp only [swarmMachine] at hstep
    exact Or.inl (hsim hstep)
  | lostInbound =>
    simp only [swarmMachine] at hstep
    obtain ⟨rfl, rfl⟩ := Prod.mk.inj (Except.ok.inj hstep)
    exact Or.inl ⟨rfl, rfl⟩
  | lostAt w =>
    simp only [swarmMachine] at hstep
    obtain ⟨rfl, rfl⟩ := Prod.mk.inj (Except.ok.inj hstep)
    exact Or.inl ⟨rfl, rfl⟩

/-- However the programs of a swarm, the simulator and the losses take turns: each program runs as it does alone,
every message it hears is known to be from a program of the swarm, and of each of them it hears, in that order
and none twice, messages that this program has sent to its address, as far as they fit into its buffer. -/
theorem swarm_hears (hon : OnNetwork t tables node terminated lines)
    (hreach : (swarmMachine t tables node).Reach (Swarm.Starts node) Machine.Any s log) :
    (∀ v n, node v = some n →
      (programMachine n.env).Reach (· = n.start) Machine.Any (s.program v) (programLog v log)) ∧
    (∀ b src msg, .heard b src msg ∈ log → ∃ n a, node b = some n ∧ (∃ n', node a = some n') ∧
      btPeerId n.env src = a) ∧
    ∀ a b n n', node a = some n → node b = some n' →
      (heard n'.env a b log).Sublist ((messagesFor t n.env b (programLog a log)).map (List.take buflen)) := by
  have hheard := heard_reach hon hreach
  refine ⟨fun v n hv => ?_, hheard.known, fun a b n n' ha hb => ?_⟩
  · refine Machine.Reach.project (fun s : Swarm => s.program v) (programAction v) (fun s hs => hs.program v n hv)
      (fun s log e s' l _ hstep => ?_) hreach
    rcases program_step hv hstep with hsame | ⟨input, -, hstep⟩
    · exact Or.inl hsame
    · exact Or.inr ⟨input, trivial, hstep⟩
  · exact hheard.hears hon ha hb

/-! ## Two programs -/

section

variable {node₁ node₂ : Node}

/-- The programs of the two nodes of `pairTopology`. -/
def pairNode (node₁ node₂ : Node) (v : Nat) : Option Node :=
  if v = 1 then some node₁ else if v = 2 then some node₂ else none

def pairSwarm (node₁ node₂ : Node) : Swarm where
  program v := if v = 1 then node₁.start else node₂.start
  net := initHupsim
  inbound := []
  socket _ := []

theorem pairNode_cases (hv : pairNode node₁ node₂ v = some n) : v = 1 ∧ n = node₁ ∨ v = 2 ∧ n = node₂ := by
  unfold pairNode at hv
  split_ifs at hv with h1 h2
  · exact Or.inl ⟨h1, (Option.some.inj hv).symm⟩
  · exact Or.inr ⟨h2, (Option.some.inj hv).symm⟩

theorem pairSwarm_starts : (pairSwarm node₁ node₂).Starts (pairNode node₁ node₂) := by
  refine ⟨fun v n hv => ?_, rfl, rfl, fun _ => rfl⟩
  rcases pairNode_cases hv with ⟨rfl, rfl⟩ | ⟨rfl, rfl⟩ <;> rfl

/-- A start as one of the peers of `pairLines`. -/
structure OnPair (b : Boot) (v : Nat) (n : Node) : Prop where
  main : b.main = .ok (some (n.env, n.spiffy, n.start))
  reads : ReadsPeers b true pairLines
  hosts : b.gethostbyname = fun _ => some localhost
  router : n.spiffy.enabled = true
  identity : n.env.identity = v

theorem pairNode_onNetwork {b b' : Boot} (h : OnPair b 1 node₁) (h' : OnPair b' 2 node₂) :
    OnNetwork pairTopology pairTables (pairNode node₁ node₂) true pairLines := by
  have hmap : SharedMap pairTopology (fun _ => some localhost) pairLines :=
    ⟨rfl, by decide, fun r _ => ⟨_, rfl, by decide, by decide⟩, pairLines_ports⟩
  refine ⟨pairTopology_connected, pairTopology_nodes, rfl, fun v n hv => ?_, fun v n hv => ?_, fun v n hv => ?_⟩
  · rcases pairNode_cases hv with ⟨-, rfl⟩ | ⟨-, rfl⟩
    · exact ⟨b, h.main, h.reads, h.hosts ▸ hmap⟩
    · exact ⟨b', h'.main, h'.reads, h'.hosts ▸ hmap⟩
  · rcases pairNode_cases hv with ⟨-, rfl⟩ | ⟨-, rfl⟩
    · exact h.router
    · exact h'.router
  · rcases pairNode_cases hv with ⟨rfl, rfl⟩ | ⟨rfl, rfl⟩
    · exact h.identity
    · exact h'.identity

end

def startedNode (identity : UInt8) : Node :=
  ⟨(pairStart identity).1, (pairStart identity).2.1, (pairStart identity).2.2⟩

theorem startedNode_onPair : OnPair (pairBoot 49) 1 (startedNode 49) ∧ OnPair (pairBoot 50) 2 (startedNode 50) := by
  have hid : (pairStart 49).1.identity = 1 ∧ (pairStart 50).1.identity = 2 := by decide +kernel
  exact ⟨⟨rfl, pairBoot_reads 49, rfl, rfl, hid.1⟩, ⟨rfl, pairBoot_reads 50, rfl, rfl, hid.2⟩⟩

/-- "GET f o", where the chunk file has one line. -/
def pairInput : Input :=
  { idleInput with
    stdin := some [71, 69, 84, 32, 102, 32, 111, 10]
    fopen _ _ := some ([48, 32] ++ List.replicate 40 48 ++ [10]) }

def pairReceipt : Receipt := ⟨fun _ => 0, fun _ => 0, ⟨0, 0⟩, ⟨0, 0⟩, fun _ => 0⟩

/-- The first program asks for a chunk, and the second one reads the message. -/
def pairRun (node₁ node₂ : Node) : Except Fault (Swarm × List SwarmAction) :=
  (swarmMachine pairTopology pairTables (pairNode node₁ node₂)).run
    [.iterate 1 none pairInput, .enter, .release 1 2, .iterate 2 (some pairReceipt) idleInput] (pairSwarm node₁ node₂)

/-- The message has the header of the packet and the bytes of the hash. -/
theorem swarm_hears_pair : ∃ s log, pairRun (startedNode 49) (startedNode 50) = .ok (s, log) ∧
    heard (startedNode 50).env 1 2 log =
      [[60, 81, 1, 0, 0, 16, 0, 40] ++ List.replicate 8 0 ++ [1] ++ List.replicate 23 0] ∧
    (heard (startedNode 50).env 1 2 log).Sublist
      ((messagesFor pairTopology (startedNode 49).env 2 (programLog 1 log)).map (List.take buflen)) := by
  have hheard : ((pairRun (startedNode 49) (startedNode 50)).toOption.map fun r => heard (startedNode 50).env 1 2 r.2) =
      some [[60, 81, 1, 0, 0, 16, 0, 40] ++ List.replicate 8 0 ++ [1] ++ List.replicate 23 0] := by decide +kernel
  rcases hrun : pairRun (startedNode 49) (startedNode 50) with f | ⟨s, log⟩
  · rw [hrun] at hheard
    cases hheard
  · rw [hrun] at hheard
    obtain ⟨hone, htwo⟩ := startedNode_onPair
    have hreach : (swarmMachine pairTopology pairTables (pairNode (startedNode 49) (startedNode 50))).Reach
        (Swarm.Starts (pairNode (startedNode 49) (startedNode 50))) Machine.Any s log :=
      Machine.Reach.runAny _ (.start pairSwarm_starts) hrun
    exact ⟨s, log, rfl, Option.some.inj hheard,
      (swarm_hears (pairNode_onNetwork hone htwo) hreach).2.2 1 2 _ _ rfl rfl⟩

end Bittorrent
