import Bittorrent.Model.ChunkFile

/-!
# Command line and peer list (`bt_parse.c`)

`getopt` gives the options one by one, each with its argument. The peer list is read with one `sscanf` a line
into local variables that no line resets: what a line does not have is what the line before it had, and a
line of white space, for which `sscanf` returns `EOF` and not 0, lists the last peer once more. A failed
assertion ends the program.
-/

namespace Bittorrent

/-- `BT_FILENAME_LEN`; an `fgets` of the peer list reads as much as one of a chunk file. -/
def btFilenameLen : Nat := 255

/-! ## The peer list -/

/-- The local variables of `bt_parse_peer_list`. -/
structure PeerLocals where
  nodeid : Int
  hostname : List UInt8
  port : Int

/-- `sscanf(line, "%d %s %d", &nodeid, hostname, &port)`; `none` if it returns 0. -/
def scanPeer (line : List UInt8) (locals : PeerLocals) : Option PeerLocals :=
  let text := cString line
  match scanInt text with
  | none => if text.dropWhile isspace = [] then some locals else none
  | some (nodeid, rest) =>
    match scanWord rest.length rest with
    | none => some { locals with nodeid }
    | some (hostname, rest) =>
      match scanInt rest with
      | none => some { locals with nodeid, hostname }
      | some (port, _) => some ⟨nodeid, hostname, port⟩

/-- What `node->id = nodeid` and `htons(port)` keep of two `int`s. -/
def btPeer (locals : PeerLocals) (host : Nat) : BtPeer :=
  ⟨locals.nodeid.bmod (2 ^ 16), ⟨host, (locals.port % 2 ^ 16).toNat⟩⟩

/-- The loop of `bt_parse_peer_list`, which puts each peer in front of the others. -/
def parsePeerLines (gethostbyname : List UInt8 → Option Nat) :
    List (List UInt8) → PeerLocals → List BtPeer → Except Fault (List BtPeer)
  | [], _, peers => .ok peers
  | line :: lines, locals, peers =>
    if line.head? = some 35 then parsePeerLines gethostbyname lines locals peers
    else
      match scanPeer line locals with
      | none => .error .exit
      | some locals =>
        match gethostbyname locals.hostname with
        | none => .error .exit
        | some host => parsePeerLines gethostbyname lines locals (btPeer locals host :: peers)

/-! ## The command line -/

structure BtConfig where
  chunkFile : List UInt8
  hasChunkFile : List UInt8
  peerListFile : List UInt8
  maxConn : Int
  identity : Int
  myport : Nat
  peers : List BtPeer

/-- `bt_init`; the peer list is in "nodes.map". -/
def btInit : BtConfig where
  chunkFile := []
  hasChunkFile := []
  peerListFile := [110, 111, 100, 101, 115, 46, 109, 97, 112]
  maxConn := 0
  identity := 0
  myport := 0
  peers := []

/-- What `main` sets before the options, which is compiled with `-DTESTING`: identity 1, "chunkfile" and
"haschunks". -/
def testingConfig : BtConfig :=
  { btInit with
    identity := 1
    chunkFile := [99, 104, 117, 110, 107, 102, 105, 108, 101]
    hasChunkFile := [104, 97, 115, 99, 104, 117, 110, 107, 115] }

/-- What `getopt` returns; every letter but `h` has an argument. -/
inductive BtOption
  | h
  | d (arg : List UInt8)
  | p (arg : List UInt8)
  | c (arg : List UInt8)
  | f (arg : List UInt8)
  | m (arg : List UInt8)
  | i (arg : List UInt8)
  | unknown

def atoi (arg : List UInt8) : Int := (scanInt arg).elim 0 (·.1)

/-- `set_debug`, which returns -1 for "", "?..." and "list". -/
def setDebug (arg : List UInt8) : Int :=
  if arg = [] ∨ arg.head? = some 63 ∨ arg = [108, 105, 115, 116] then -1 else 0

/-- `strcpy` into a field of `BT_FILENAME_LEN` bytes. -/
def copyName (arg : List UInt8) (store : List UInt8 → BtConfig) : Except Fault BtConfig :=
  if arg.length < btFilenameLen then .ok (store arg) else .error .overflow

/-- The `switch` of `bt_parse_command_line`. -/
def BtConfig.option (config : BtConfig) : BtOption → Except Fault BtConfig
  | .h => .error .exit
  | .d arg => if setDebug arg = -1 then .error .exit else .ok config
  | .p arg => copyName arg fun name => { config with peerListFile := name }
  | .c arg => copyName arg fun name => { config with hasChunkFile := name }
  | .f arg => copyName arg fun name => { config with chunkFile := name }
  | .m arg => .ok { config with maxConn := atoi arg }
  | .i arg => .ok { config with identity := (atoi arg).bmod (2 ^ 16) }
  | .unknown => .error .exit

def BtConfig.options (config : BtConfig) : List BtOption → Except Fault BtConfig
  | [] => .ok config
  | opt :: opts =>
    match config.option opt with
    | .error f => .error f
    | .ok config => config.options opts

/-- `bt_peer_info`. -/
def btPeerInfo (config : BtConfig) (peerId : Int) : Option BtPeer := config.peers.find? fun p => p.id = peerId

/-- `bt_parse_command_line`; `stack` is what the locals of `bt_parse_peer_list` hold at first. -/
def btParseCommandLine (start : BtConfig) (gethostbyname : List UInt8 → Option Nat)
    (fopen : List UInt8 → Option (List UInt8)) (stack : PeerLocals) (opts : List BtOption) :
    Except Fault BtConfig :=
  match start.options opts with
  | .error f => .error f
  | .ok config =>
    match fopen config.peerListFile with
    | none => .error .exit
    | some file =>
      match parsePeerLines gethostbyname (fileLines file) stack config.peers with
      | .error f => .error f
      | .ok peers =>
        let config := { config with peers }
        if config.identity = 0 then .error .exit
        else
          match btPeerInfo config config.identity with
          | none => .error .exit
          | some p =>
            if config.chunkFile = [] ∨ config.hasChunkFile = [] then .error .exit
            else .ok { config with myport := p.addr.sinPort }

end Bittorrent
