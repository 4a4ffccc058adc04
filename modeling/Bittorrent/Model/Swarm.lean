import Bittorrent.Model.Hupsim
import Bittorrent.Model.Startup

/-!
# Programs on the simulator

Every node of the topology may run a program. What a program sends goes to the socket of the simulator, and what
the router of a node sends goes to the socket of its program. A socket is a queue from which datagrams may get
lost. The programs, the simulator and the losses take turns in any order.
-/

namespace Bittorrent

/-- A program that has come to its loop. -/
structure Node where
  env : Env
  spiffy : Spiffy
  start : Program

/-- What an action of a program hands to `spiffy_sendto`. -/
def handsOver (env : Env) : (Nat × StreamAction) ⊕ DownloadAction → Option (Option Addr × List UInt8)
  | .inl (_, .transmitted peerId seq bytes _) => some (findAddr env peerId, (Message.data seq bytes).datagram)
  | .inr (.sent dst m) => some (dst, m.datagram)
  | _ => none

/-- The datagrams of some calls of `spiffy_sendto`. -/
def Node.send (n : Node) : List (Option Addr × List UInt8) → Except Fault (List (List UInt8))
  | [] => .ok []
  | (dst, msg) :: rest =>
    match spiffySendto n.spiffy msg dst with
    | .error f => .error f
    | .ok (_, datagram) =>
      match n.send rest with
      | .error f => .error f
      | .ok sent => .ok (datagram :: sent)

structure Swarm where
  program : Nat → Program
  net : Hupsim
  /-- The socket of the simulator. -/
  inbound : List (List UInt8)
  /-- The socket of each node. -/
  socket : Nat → List (List UInt8)

inductive SwarmAction
  | acted (v : Nat) (action : (Nat × StreamAction) ⊕ DownloadAction)
  /-- A program has sent a datagram. -/
  | sent (v : Nat) (datagram : List UInt8)
  /-- A program has received a message. -/
  | heard (v : Nat) (src : Addr) (msg : List UInt8)
  | carried (action : HupsimAction)

/-- What an iteration gets from outside besides its socket: what `malloc` gives, what is in `buf` and `from`, and
who the datagram is from. -/
structure Receipt where
  heap : Memory
  buf : Memory
  src : Addr
  sender : Addr
  clk : Clock

/-- What `spiffy_recvfrom` makes of a datagram at the socket. -/
def Node.recv (n : Node) (receipt : Receipt) (pkt : List UInt8) : Int × Memory × Addr :=
  spiffyRecvfrom n.spiffy buflen receipt.heap (some (receipt.sender, pkt)) receipt.buf receipt.src

inductive SwarmEvent
  /-- An iteration of a program, with a datagram if there is one and `select` says so. -/
  | iterate (v : Nat) (receipt : Option Receipt) (input : Input)
  /-- The simulator reads its socket. -/
  | enter
  | release (v w : Nat)
  /-- The first datagram at the socket of the simulator, or of a node, has not got there. -/
  | lostInbound
  | lostAt (v : Nat)

/-- What the routers send to the nodes. -/
def deliver (socket : Nat → List (List UInt8)) : List HupsimAction → Nat → List (List UInt8)
  | [] => socket
  | .delivered v pkt :: l => deliver (Function.update socket v (socket v ++ [pkt])) l
  | _ :: l => deliver socket l

namespace Swarm

/-- The simulator handles an event. -/
def simulate (t : Topology) (tables : Nat → Nat → Option Nat) (e : HupsimEvent) (s : Swarm) :
    Except Fault (Swarm × List SwarmAction) :=
  match (hupsimMachine t tables).step e s.net with
  | .error f => .error f
  | .ok (net, l) => .ok ({ s with net, socket := deliver s.socket l }, l.map .carried)

/-- An iteration of program `v`, after it has taken a datagram from its socket or not. -/
def run (n : Node) (v : Nat) (input : Input) (s : Swarm) : Except Fault (Swarm × List SwarmAction) :=
  match (s.program v).iterate n.env input with
  | .error f => .error f
  | .ok (p, l) =>
    match n.send (l.filterMap (handsOver n.env)) with
    | .error f => .error f
    | .ok sent =>
      .ok ({ s with program := Function.update s.program v p, inbound := s.inbound ++ sent },
        l.map (.acted v) ++ sent.map (.sent v))

/-- `process_inbound_udp` reads the socket. -/
def receive (n : Node) (v : Nat) (receipt : Receipt) (input : Input) (s : Swarm) :
    Except Fault (Swarm × List SwarmAction) :=
  match s.socket v with
  | [] => s.run n v { input with datagram := none }
  | pkt :: rest =>
    let (size, buf, src) := n.recv receipt pkt
    match { s with socket := Function.update s.socket v rest }.run n v
      { input with datagram := some (src, buf, [], receipt.clk) } with
    | .error f => .error f
    | .ok (s, l) => .ok (s, .heard v src (readBytes buf 0 size.toNat) :: l)

end Swarm

def swarmMachine (t : Topology) (tables : Nat → Nat → Option Nat) (node : Nat → Option Node) :
    Machine Swarm SwarmEvent SwarmAction Fault where
  step
    | .iterate v receipt input, s =>
      match node v, receipt with
      | none, _ => .ok (s, [])
      | some n, none => s.run n v { input with datagram := none }
      | some n, some receipt => s.receive n v receipt input
    | .enter, s =>
      match s.inbound with
      | [] => .ok (s, [])
      | datagram :: rest => { s with inbound := rest }.simulate t tables (.inbound datagram)
    | .release v w, s => s.simulate t tables (.release v w)
    | .lostInbound, s => .ok ({ s with inbound := s.inbound.tail }, [])
    | .lostAt v, s => .ok ({ s with socket := Function.update s.socket v (s.socket v).tail }, [])

/-- Every program is at its start, and nothing is under way. -/
structure Swarm.Starts (node : Nat → Option Node) (s : Swarm) : Prop where
  program : ∀ v n, node v = some n → s.program v = n.start
  net : s.net = initHupsim
  inbound : s.inbound = []
  socket : ∀ v, s.socket v = []

end Bittorrent
