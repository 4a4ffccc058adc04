import Bittorrent.Model.Config
import Bittorrent.Model.Packet
import Bittorrent.Model.UserInput

/-!
# The way through the simulator (`spiffy.c`)

With a router set, every datagram goes to the router behind a header that says where it comes from and where
it goes, and what is received is taken out from behind that header. The fields of the header are in network
byte order, as they are in a `sockaddr_in`.
-/

namespace Bittorrent

/-- `spiffy_header`. -/
structure SpiffyHeader where
  id : Nat
  srcAddr : Nat
  destAddr : Nat
  srcPort : Nat
  destPort : Nat

def spiffyHeaderSize : Nat := 16

def SpiffyHeader.bytes (h : SpiffyHeader) : List UInt8 :=
  htonl h.id ++ htonl h.srcAddr ++ htonl h.destAddr ++ htons h.srcPort ++ htons h.destPort

def readSpiffyHeader (m : Memory) : SpiffyHeader := ⟨ntohl m 0, ntohl m 4, ntohl m 8, ntohs m 12, ntohs m 14⟩

/-- The global variables. -/
structure Spiffy where
  enabled : Bool
  nodeID : Int
  srcAddr : Nat
  srcPort : Nat
  router : Addr

/-- `spiffy_init`. The name of the router is cut at its colon; without one, or with an address that
`inet_aton` does not take, nothing is enabled. -/
def spiffyInit (inetAton : List UInt8 → Option Nat) (spiffyRouter : Option (List UInt8)) (nodeID : Int)
    (addr : Addr) : Spiffy :=
  let off : Spiffy := ⟨false, 0, 0, 0, ⟨0, 0⟩⟩
  match spiffyRouter with
  | none => off
  | some name =>
    match strchr 58 name with
    | none => off
    | some colon =>
      let port := (atoi (name.drop (colon + 1)) % 2 ^ 16).toNat
      match inetAton (name.take colon) with
      | none => { off with router := ⟨0, port⟩ }
      | some router => ⟨true, nodeID, addr.sinAddr, addr.sinPort, ⟨router, port⟩⟩

/-- `spiffy_sendto`: where it sends, and what. A NULL address is followed only on the way to the router. -/
def spiffySendto (g : Spiffy) (msg : List UInt8) (dst : Option Addr) :
    Except Fault (Option Addr × List UInt8) :=
  if g.enabled then
    match dst with
    | none => .error .nullDeref
    | some dst =>
      .ok (some g.router,
        SpiffyHeader.bytes ⟨toUnsigned g.nodeID, g.srcAddr, dst.sinAddr, g.srcPort, dst.sinPort⟩ ++ msg)
  else .ok (dst, msg)

/-- `spiffy_recvfrom(socket, buf, size, 0, &from, ...)`: what it returns, the buffer and the address. `heap` is
what `malloc` gives, `received` what `recvfrom` does, `none` if it fails. All of the buffer is copied. -/
def spiffyRecvfrom (g : Spiffy) (size : Nat) (heap : Memory) (received : Option (Addr × List UInt8))
    (buf : Memory) (src : Addr) : Int × Memory × Addr :=
  match received with
  | none => (-1, buf, src)
  | some (sender, datagram) =>
    if g.enabled then
      let datagram := datagram.take (size + spiffyHeaderSize)
      let newbuf := (receiveInto heap datagram).buf
      if datagram.length = 0 then (0, buf, src)
      else
        let head := readSpiffyHeader newbuf
        ((datagram.length : Int) - spiffyHeaderSize,
          copyBytes buf 0 (fun k => newbuf (spiffyHeaderSize + k)) size, ⟨head.srcAddr, head.srcPort⟩)
    else ((datagram.take size).length, (receiveInto buf (datagram.take size)).buf, sender)

end Bittorrent
