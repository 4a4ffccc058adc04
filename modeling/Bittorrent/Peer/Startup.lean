import Bittorrent.Files.PeerList
import Bittorrent.Model.Startup
import Bittorrent.Peer.Program

/-!
# A program that has started

What a program knows of the other peers is what its peer list says: of each id and of each port, the last
record that has it. Its own id is listed, and it sends from the port of that record. From there on it runs as
`program_refines_peer` says.

`main` is a chain of calls that may each exit, so `main_ok` is its inversion: a program that has come to its
loop has parsed its command line, read its chunk files and found itself in its peer list. The options may
come in any order and any number, and none touches the list, which `bt_parse_command_line` reads at its end
(`options_peers`). A search runs from the front of a list that was built from behind, so it finds the last
line that fits (`main_find`). In the runs from there on the configuration is constant.
-/

namespace Bittorrent

variable {terminated : Bool} {gethostbyname : List UInt8 → Option Nat} {fopen : List UInt8 → Option (List UInt8)}
  {stack : PeerLocals} {opts : List BtOption} {start config config' : BtConfig} {lines : List PeerLine} {b : Boot}
  {env : Env} {g : Spiffy} {p p' : Program} {log : PeerLog}

/-! ## The command line -/

theorem copyName_peers {arg : List UInt8} {store : List UInt8 → BtConfig}
    (h : copyName arg store = .ok config') : config'.peers = (store arg).peers := by
  unfold copyName at h
  split_ifs at h
  cases h
  rfl

theorem option_peers {opt : BtOption} (h : config.option opt = .ok config') : config'.peers = config.peers := by
  cases opt with
  | h => cases h
  | d arg =>
    simp only [BtConfig.option] at h
    split_ifs at h
    cases h
    rfl
  | p arg =>
    rw [BtConfig.option] at h
    exact copyName_peers h
  | c arg =>
    rw [BtConfig.option] at h
    exact copyName_peers h
  | f arg =>
    rw [BtConfig.option] at h
    exact copyName_peers h
  | m arg =>
    cases h
    rfl
  | i arg =>
    cases h
    rfl
  | unknown => cases h

theorem options_peers (h : config.options opts = .ok config') : config'.peers = config.peers := by
  induction opts generalizing config with
  | nil =>
    cases h
    rfl
  | cons opt opts ih =>
    rw [BtConfig.options] at h
    rcases hopt : config.option opt with f | config₁
    · rw [hopt] at h
      cases h
    · rw [hopt] at h
      exact (ih h).trans (option_peers hopt)

theorem commandLine_ok (h : btParseCommandLine start gethostbyname fopen stack opts = .ok config) :
    ∃ config₀ file p, start.options opts = .ok config₀ ∧ fopen config₀.peerListFile = some file ∧
      parsePeerLines gethostbyname (fileLines file) stack start.peers = .ok config.peers ∧ config.identity ≠ 0 ∧
      config.peers.find? (fun p => p.id = config.identity) = some p ∧ config.myport = p.addr.sinPort := by
  unfold btParseCommandLine at h
  split at h
  · cases h
  · rename_i config₀ hopts
    split at h
    · cases h
    · rename_i file hfile
      split at h
      · cases h
      · rename_i peers hparse
        dsimp only at h
        split at h
        · cases h
        · rename_i hzero
          split at h
          · cases h
          · rename_i q hq
            split_ifs at h
            cases h
            rw [options_peers hopts] at hparse
            exact ⟨config₀, file, q, hopts, hfile, hparse, hzero, hq, rfl⟩

/-! ## `main` -/

theorem main_ok (h : b.main = .ok (some (env, g, p))) :
    ∃ config has, btParseCommandLine testingConfig b.gethostbyname b.fopen b.stack b.opts = .ok config ∧
      env.peers = config.peers ∧ env.identity = config.identity ∧
      g = spiffyInit b.inetAton b.spiffyRouter config.identity ⟨0, config.myport⟩ ∧
      p = initProgram config.maxConn.toNat b.unset has b.files := by
  unfold Boot.main at h
  split at h
  · cases h
  · rename_i config hconfig
    unfold Boot.peerRun at h
    split at h
    · cases h
    · split at h
      · cases h
      · split at h
        · cases h
          exact ⟨config, _, hconfig, rfl, rfl, rfl, rfl⟩
        · cases h

theorem spiffyInit_enabled {inetAton : List UInt8 → Option Nat} {router : Option (List UInt8)} {nodeID : Int}
    {addr : Addr} (h : (spiffyInit inetAton router nodeID addr).enabled = true) :
    (spiffyInit inetAton router nodeID addr).nodeID = nodeID ∧
      (spiffyInit inetAton router nodeID addr).srcAddr = addr.sinAddr ∧
      (spiffyInit inetAton router nodeID addr).srcPort = addr.sinPort := by
  generalize hinit : spiffyInit inetAton router nodeID addr = g at *
  unfold spiffyInit at hinit
  dsimp only at hinit
  split at hinit
  · cases hinit
    cases h
  · split at hinit
    · cases hinit
      cases h
    · split at hinit
      · cases hinit
        cases h
      · cases hinit
        exact ⟨rfl, rfl, rfl⟩

/-! ## What a program knows -/

/-- The peer list of a program has these lines. -/
structure ReadsPeers (b : Boot) (terminated : Bool) (lines : List PeerLine) : Prop where
  file : ∀ config, testingConfig.options b.opts = .ok config →
    b.fopen config.peerListFile = some (peerFile terminated lines)
  read : PeersReadAtOnce terminated lines
  first : PeerLine.RecordFirst lines
  hosts : ∀ r ∈ PeerLine.records lines, (b.gethostbyname r.host).isSome = true

section

variable (h : b.main = .ok (some (env, g, p))) (hpeers : ReadsPeers b terminated lines)

include h hpeers

theorem main_find (q : BtPeer → Bool) :
    env.peers.find? q =
      (PeerLine.lastRecord lines fun r => q (r.peer b.gethostbyname)).map fun r => r.peer b.gethostbyname := by
  obtain ⟨config, has, hconfig, hpeer, -⟩ := main_ok h
  obtain ⟨config₀, file, p, hopts, hfile, hparse, -⟩ := commandLine_ok hconfig
  obtain rfl := Option.some.inj ((hpeers.file config₀ hopts).symm.trans hfile)
  obtain ⟨peers, hparse', hfind⟩ := parsePeerLines_file b.stack hpeers.read hpeers.first hpeers.hosts
  obtain rfl := Except.ok.inj (hparse'.symm.trans hparse)
  rw [hpeer]
  exact hfind q

theorem main_findAddr (id : Int) :
    findAddr env id = (PeerLine.lastRecord lines fun r => r.peerId = id).map fun r => (r.peer b.gethostbyname).addr := by
  rw [findAddr, main_find h hpeers, Option.map_map]
  rfl

theorem main_btPeerId (a : Addr) :
    btPeerId env a =
      ((PeerLine.lastRecord lines fun r => r.sinPort = a.sinPort).map PeerRecord.peerId).getD (-1) := by
  have hsearch : env.peers.find? (fun p => p.addr.sinPort = a.sinPort) =
    (PeerLine.lastRecord lines fun r => r.sinPort = a.sinPort).map fun r => r.peer b.gethostbyname := main_find h hpeers _
  rw [btPeerId, hsearch]
  cases PeerLine.lastRecord lines fun r => r.sinPort = a.sinPort with
  | none => rfl
  | some r => rfl

theorem main_identity :
    env.identity ≠ idNull ∧ ∃ r, PeerLine.lastRecord lines (fun r => r.peerId = env.identity) = some r ∧
      (g.enabled = true → g.nodeID = env.identity ∧ g.srcAddr = 0 ∧ g.srcPort = r.sinPort) := by
  have hfind := main_find h hpeers
  obtain ⟨config, has, hconfig, hpeer, hid, rfl, -⟩ := main_ok h
  obtain ⟨config₀, file, q, -, -, -, hne, hown, hport⟩ := commandLine_ok hconfig
  rw [hpeer] at hfind
  rw [hfind] at hown
  obtain ⟨r, hlast, rfl⟩ := Option.map_eq_some_iff.mp hown
  rw [hid]
  refine ⟨hne, r, hlast, fun henabled => ?_⟩
  obtain ⟨hnode, haddr, hsrc⟩ := spiffyInit_enabled henabled
  exact ⟨hnode, haddr, hsrc.trans hport⟩

end

/-- A program that has started is in no state but the first of a peer. Whatever its options were, the
addresses and the ids it finds are those of the last records that have the id or the port, its own id is
listed and not 0, and the router is told the port that is listed for it. -/
theorem started_knows_peers (h : b.main = .ok (some (env, g, p))) (hpeers : ReadsPeers b terminated lines) :
    (∃ max has, p = initProgram max b.unset has b.files) ∧
    (∀ id, findAddr env id = (PeerLine.lastRecord lines fun r => r.peerId = id).map fun r =>
      (r.peer b.gethostbyname).addr) ∧
    (∀ a, btPeerId env a = ((PeerLine.lastRecord lines fun r => r.sinPort = a.sinPort).map
      PeerRecord.peerId).getD (-1)) ∧
    env.identity ≠ idNull ∧
    ∃ r, PeerLine.lastRecord lines (fun r => r.peerId = env.identity) = some r ∧
      (g.enabled = true → g.nodeID = env.identity ∧ g.srcAddr = 0 ∧ g.srcPort = r.sinPort) := by
  obtain ⟨config, has, -, -, -, -, hinit⟩ := main_ok h
  exact ⟨⟨_, has, hinit⟩, main_findAddr h hpeers, main_btPeerId h hpeers, main_identity h hpeers⟩

/-- "1 a 1". -/
def firstRecord : PeerRecord :=
  let one : Numeral := ⟨false, [49], by decide, List.forall_mem_singleton.mpr rfl, by decide +kernel⟩
  ⟨one, [97], one, by decide, List.forall_mem_singleton.mpr ⟨rfl, by decide⟩⟩

/-- "2 b 2". -/
def secondRecord : PeerRecord :=
  let two : Numeral := ⟨false, [50], by decide, List.forall_mem_singleton.mpr rfl, by decide +kernel⟩
  ⟨two, [98], two, by decide, List.forall_mem_singleton.mpr ⟨rfl, by decide⟩⟩

def pairLines : List PeerLine := [.peer firstRecord, .peer secondRecord]

/-- A start as the peer of one digit, with a router and empty chunk files. -/
def pairBoot (identity : UInt8) : Boot where
  opts := [.c [99], .f [102], .i [identity]]
  gethostbyname _ := some 2130706433
  inetAton _ := some 2130706433
  spiffyRouter := some [49, 58, 53]
  fopen name := if name = btInit.peerListFile then some (peerFile true pairLines) else some []
  files _ _ := 0
  writes _ _ := btChunkSize
  smoothing := sampleEnv.smoothing
  stack := ⟨0, [], 0⟩
  stale := ⟨fun _ => 0, fun _ => 0⟩
  readBuffer := []
  shaStack _ := 0
  unset _ := unsetZero

theorem pairBoot_reads (identity : UInt8) : ReadsPeers (pairBoot identity) true pairLines := by
  refine ⟨fun config h => ?_, ⟨by decide, Or.inl rfl⟩, trivial, fun r _ => rfl⟩
  obtain rfl := Except.ok.inj h
  rfl

/-- What `main` makes of it. -/
def pairStart (identity : UInt8) : Env × Spiffy × Program :=
  match (pairBoot identity).main with
  | .ok (some started) => started
  | _ => (sampleEnv, spiffyInit (fun _ => none) none 0 ⟨0, 0⟩, initProgram 0 (fun _ => unsetZero) [] fun _ _ => 0)

theorem started_knows_peers_pair : findAddr (pairStart 49).1 2 = some ⟨2130706433, 2⟩ := by
  have hmain : (pairBoot 49).main = .ok (some ((pairStart 49).1, (pairStart 49).2.1, (pairStart 49).2.2)) := rfl
  obtain ⟨-, hfind, -⟩ := started_knows_peers hmain (pairBoot_reads 49)
  rw [hfind 2]
  decide +kernel

end Bittorrent
