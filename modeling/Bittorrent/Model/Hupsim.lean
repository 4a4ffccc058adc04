import Bittorrent.Lib.Machine
import Bittorrent.Model.Packet

/-!
# The network simulator (`hupsim.pl`)

The routers of a topology, the table that each of them computes with Dijkstra's algorithm, and the queues
between them. An array of Perl with undefined entries is the list of its defined indices, and the table of a
router is a partial function. When a packet leaves a queue is a matter of floating-point times: here the
events of a run say so, and a queue only keeps the order. `die` is the fault `exit`.
-/

namespace Bittorrent

/-! ## The topology -/

/-- A line of `topo.map`, with the rate in bits a second; its latency is only used for times. -/
structure TopoLine where
  src : Nat
  dst : Nat
  rate : Nat
  queuemax : Nat

/-- A line of `nodes.map`, its host as `gethostbyname` gives it. -/
structure NodeLine where
  node : Nat
  ip : Nat
  port : Nat

structure Topology where
  topo : List TopoLine
  nodes : List NodeLine

def defaultQueueMax : Nat := 10
def packetSizeMax : Nat := 2048
/-- `$INFINITY`, "must be bigger than # of routers". -/
def routeInfinity : Nat := 65535
/-- 127.0.0.1, for which 0.0.0.0 stands. -/
def localhost : Nat := 127 * 2 ^ 24 + 1

namespace TopoLine

variable (l : TopoLine) (v w : Nat)

def Ends : Prop := v = l.src ∨ v = l.dst

def Joins : Prop := (l.src = v ∧ l.dst = w) ∨ (l.src = w ∧ l.dst = v)

instance : Decidable (l.Ends v) := inferInstanceAs (Decidable (_ ∨ _))

instance : Decidable (l.Joins v w) := inferInstanceAs (Decidable (_ ∨ _))

end TopoLine

namespace Topology

variable (t : Topology)

/-- The length of `@routers`. -/
def size : Nat := (t.topo.map fun l => max l.src l.dst).foldr max 0 + 1

/-- The defined entries of `@routers`. -/
def routers : List Nat := (List.range t.size).filter fun v => t.topo.any fun l => l.Ends v

/-- The defined entries of a router's `routes`. Each line adds a route in both directions. -/
def routes (v : Nat) : List Nat := (List.range t.size).filter fun w => t.topo.any fun l => l.Joins v w

/-- The line of the queue from one router to another: the last one that joins them. -/
def line (v w : Nat) : Option TopoLine := t.topo.reverse.find? fun l => l.Joins v w

/-- `max` of the queue. -/
def queueMax (v w : Nat) : Nat :=
  match t.line v w with
  | some l => if l.queuemax = 0 then defaultQueueMax else l.queuemax
  | none => defaultQueueMax

/-- `rate` of the queue, in whole bytes a second. -/
def rate (v w : Nat) : Nat :=
  match t.line v w with
  | some l => l.rate / 8
  | none => 0

/-- `%nodes`, by the last line that has the address. -/
def node (ip port : Nat) : Option Nat :=
  (t.nodes.reverse.find? fun n => n.ip = ip ∧ n.port = port).map (·.node)

/-- `%nodeKeys`: where the socket of a router sends to. -/
def nodeKey (v : Nat) : Option Addr :=
  (t.nodes.reverse.find? fun n => n.node = v).map fun n => ⟨n.ip, n.port⟩

end Topology

/-! ## `createTable` -/

/-- The fields of the routers that one search uses. -/
structure RouteSearch where
  done : Nat → Bool
  distance : Nat → Nat
  predecessor : Nat → Option Nat

namespace RouteSearch

/-- The base state; the predecessors are those of the search before. -/
def start (self : Nat) (predecessor : Nat → Option Nat) : RouteSearch :=
  ⟨fun _ => false, fun v => if v = self then 0 else routeInfinity, predecessor⟩

/-- Which vertex to visit next: the first of least distance. -/
def nextVertex (s : RouteSearch) : List Nat → Nat → Option Nat → Option Nat
  | [], _, next => next
  | v :: vs, min, next =>
    if s.done v = false ∧ s.distance v < min then s.nextVertex vs (s.distance v) (some v)
    else s.nextVertex vs min next

/-- An edge of the vertex that is visited, with unit weight. -/
def relax (next : Nat) (s : RouteSearch) (w : Nat) : RouteSearch :=
  if s.distance next + 1 < s.distance w then
    { s with
      distance := Function.update s.distance w (s.distance next + 1)
      predecessor := Function.update s.predecessor w (some next) }
  else s

/-- One round of the loop. -/
def visit (t : Topology) (s : RouteSearch) : RouteSearch :=
  match s.nextVertex t.routers (routeInfinity + 1) none with
  | none => s
  | some next =>
    let s := (t.routes next).foldl (relax next) s
    { s with done := Function.update s.done next true }

end RouteSearch

/-- The search of a router: as many rounds as there are routers. -/
def routeSearch (t : Topology) (self : Nat) (predecessor : Nat → Option Nat) : RouteSearch :=
  t.routers.foldl (fun s _ => s.visit t) (.start self predecessor)

/-- The loop back to the first router on the way. A vertex without predecessor gets an empty one when it is
read, whose id counts as 0: for any other router the loop never ends. -/
def startRoute (self : Nat) (predecessor : Nat → Option Nat) : Nat → Nat → Except Fault Nat
  | 0, _ => .error .diverge
  | fuel + 1, v =>
    match predecessor v with
    | none => if self = 0 then .ok v else .error .diverge
    | some u => if u = self then .ok v else startRoute self predecessor fuel u

/-- `routingTable`, filled for one vertex after another. -/
def fillTable (t : Topology) (self : Nat) (predecessor : Nat → Option Nat) :
    List Nat → (Nat → Option Nat) → Except Fault (Nat → Option Nat)
  | [], table => .ok table
  | v :: vs, table =>
    if v = self then fillTable t self predecessor vs table
    else
      match startRoute self predecessor t.routers.length v with
      | .error f => .error f
      | .ok w =>
        if w ∈ t.routes self then fillTable t self predecessor vs (Function.update table v (some w))
        else .error .exit

/-- The tables of all routers, by router and destination: the neighbour to send to. -/
def createTables (t : Topology) :
    List Nat → (Nat → Option Nat) → (Nat → Nat → Option Nat) → Except Fault (Nat → Nat → Option Nat)
  | [], _, tables => .ok tables
  | self :: vs, predecessor, tables =>
    let s := routeSearch t self predecessor
    match fillTable t self s.predecessor t.routers fun _ => none with
    | .error f => .error f
    | .ok table => createTables t vs s.predecessor (Function.update tables self table)

/-- Before the first packet. -/
def routingTables (t : Topology) : Except Fault (Nat → Nat → Option Nat) :=
  createTables t t.routers (fun _ => none) fun _ _ => none

/-! ## Packets -/

/-- `unpack` of an N or an n; what is not there is undefined, and counts as 0. -/
def unpackN (pkt : List UInt8) (off : Nat) : Nat :=
  if off + 4 ≤ pkt.length then ntohl (fun k => pkt.getD k 0) off else 0

def unpackn (pkt : List UInt8) (off : Nat) : Nat :=
  if off + 2 ≤ pkt.length then ntohs (fun k => pkt.getD k 0) off else 0

/-- `$srcID`, the router at which a packet enters. -/
def sourceNode (pkt : List UInt8) : Nat := unpackN pkt 0

/-- `$dest`, the node a packet is for. -/
def destNode (t : Topology) (pkt : List UInt8) : Option Nat :=
  let ip := unpackN pkt 8
  t.node (if ip = 0 then localhost else ip) (unpackn pkt 14)

/-! ## The network -/

/-- The queue of each route, by its two ends. -/
structure Hupsim where
  queue : Nat → Nat → List (List UInt8)

inductive HupsimAction
  | entered (v : Nat) (pkt : List UInt8)
  /-- The router of a node has sent a packet to it. -/
  | delivered (v : Nat) (pkt : List UInt8)
  | dropped (v : Nat) (pkt : List UInt8)

inductive HupsimEvent
  /-- A datagram at the socket of the simulator. -/
  | inbound (datagram : List UInt8)
  /-- The time of the first packet of a queue has come. -/
  | release (v w : Nat)

namespace Hupsim

def write (h : Hupsim) (v w : Nat) (queue : List (List UInt8)) : Hupsim :=
  ⟨Function.update h.queue v (Function.update (h.queue v) w queue)⟩

/-- `enQ`. The time of a packet is its length divided by the rate: with rate 0 the simulator dies. -/
def enQ (t : Topology) (v w : Nat) (pkt : List UInt8) (h : Hupsim) : Except Fault (Hupsim × List HupsimAction) :=
  if t.queueMax v w ≤ (h.queue v w).length then .ok (h, [.dropped v pkt])
  else if t.rate v w = 0 then .error .exit
  else .ok (h.write v w (h.queue v w ++ [pkt]), [])

/-- `recv` of router `v`. -/
def recv (t : Topology) (tables : Nat → Nat → Option Nat) (v : Nat) (pkt : List UInt8) (h : Hupsim) :
    Except Fault (Hupsim × List HupsimAction) :=
  match destNode t pkt with
  | none => .ok (h, [.dropped v pkt])
  | some dest =>
    if dest = v then .ok (h, [.delivered v pkt])
    else
      match tables v dest with
      | none => .error .exit
      | some w => h.enQ t v w pkt

end Hupsim

/-- The main loop of the simulator. A packet enters at the router its header names, if there is one. -/
def hupsimMachine (t : Topology) (tables : Nat → Nat → Option Nat) :
    Machine Hupsim HupsimEvent HupsimAction Fault where
  step
    | .inbound datagram, h =>
      let pkt := datagram.take packetSizeMax
      if sourceNode pkt ∈ t.routers then
        match h.recv t tables (sourceNode pkt) pkt with
        | .error f => .error f
        | .ok (h, l) => .ok (h, .entered (sourceNode pkt) pkt :: l)
      else .ok (h, [])
    | .release v w, h =>
      match h.queue v w with
      | [] => .ok (h, [])
      | pkt :: rest => (h.write v w rest).recv t tables w pkt

/-- At first every queue is empty. -/
def initHupsim : Hupsim := ⟨fun _ _ => []⟩

end Bittorrent
