import Bittorrent.Files.RejectedGet
import Bittorrent.Model.Program
import Bittorrent.Peer.Runs

/-!
# The program refines the peer

An iteration of the loop on a raw datagram and raw standard input is one of `peer_run` on packets and GET
lines: the lines that the buffer completes are read as events, and the rest of the loop follows them. So what
holds in every run of the peer holds in every run of the program.

The buffer of standard input is the one piece of state that a peer has not, so the refinement forgets it.
What is to be shown is that the lines it completes are those that `peer_run` is given as events, each parsed
as `process_get` does (`processGet_event`), and that the loop goes on in the same order: lines, packet,
crash, timers (`serve_events`). The iteration is `iterate_events`, the run an induction over the iterations.
-/

namespace Bittorrent

variable {env : Env} {input : Input} {p p' : Program} {s s' : Peer} {log l : PeerLog} {outf : String}
  {lines : List (List UInt8)} {line : List UInt8}

theorem andThen_ok {r : Except Fault (Peer × PeerLog)} {next : Peer → Except Fault (Peer × PeerLog)}
    (h : Peer.andThen r next = .ok (s', l)) :
    ∃ s l₁ l₂, r = .ok (s, l₁) ∧ next s = .ok (s', l₂) ∧ l = l₁ ++ l₂ := by
  unfold Peer.andThen at h
  split at h
  · cases h
  · rename_i s₁ l₁
    split at h
    · cases h
    · rename_i s₂ l₂ hnext
      cases h
      exact ⟨s₁, l₁, l₂, rfl, hnext, rfl⟩

/-! ## Lines -/

/-- The output files that the GET lines among some lines name. -/
def NamesFile (outf : String) (lines : List (List UInt8)) : Prop :=
  ∃ line ∈ lines, ∃ chunkf, scanGet (cString line) = some (chunkf, outf)

theorem processGet_event {k : Nat} {chunkf : String}
    (h : (s.created outf).processGet env input k chunkf outf = .ok (s', l)) :
    ∃ parsed, (peerMachine env).step (.line outf parsed) s = .ok (s', l) := by
  have hstep : ∀ parsed, (peerMachine env).step (.line outf parsed) s =
      s.download (userGet env outf parsed s.downloads) := fun _ => rfl
  simp only [hstep]
  unfold userGet
  obtain ⟨uploads, ⟨slots, current, connections, has, files⟩⟩ := s
  rcases current with _ | current
  · rw [Peer.processGet, if_neg (by simp [Peer.created])] at h
    split at h
    · cases h
    · cases h
      exact ⟨none, rfl⟩
    · rename_i request hparsed
      refine ⟨some (request.chunks.map fun chunk => (chunk.id, chunk.hash)), ?_⟩
      dsimp only at h ⊢
      rw [← parse_requestEntry hparsed]
      rcases hsent : whohasFlooding env request with f | sent
      · rw [hsent] at h
        cases h
      · rw [hsent] at h
        obtain ⟨rfl, rfl⟩ := Prod.mk.inj (Except.ok.inj h)
        rfl
  · rw [Peer.processGet, if_pos (by simp [Peer.created])] at h
    cases h
    exact ⟨none, rfl⟩

theorem handleLines_events (h : s.handleLines env input lines = .ok (s', l)) :
    ∃ gets : List (String × Option (List (Int × Hash))),
      (peerMachine env).run (gets.map fun (outf, parsed) => .line outf parsed) s = .ok (s', l) ∧
        ∀ get ∈ gets, NamesFile get.1 lines := by
  induction lines generalizing s l with
  | nil =>
    cases h
    exact ⟨[], rfl, fun get hmem => absurd hmem List.not_mem_nil⟩
  | cons line lines ih =>
    obtain ⟨s₁, l₁, l₂, hline, hrest, rfl⟩ := andThen_ok h
    obtain ⟨gets, hrun, hnames⟩ := ih hrest
    have hnames' : ∀ get ∈ gets, NamesFile get.1 (line :: lines) := by
      intro get hmem
      obtain ⟨line', hmem', hscan⟩ := hnames get hmem
      exact ⟨line', List.mem_cons_of_mem _ hmem', hscan⟩
    unfold Peer.handleUserInput at hline
    split at hline
    · cases hline
      exact ⟨gets, hrun, hnames'⟩
    · rename_i chunkf outf hscan
      obtain ⟨parsed, hstep⟩ := processGet_event hline
      refine ⟨(outf, parsed) :: gets, Machine.run_cons hstep hrun, fun get hmem => ?_⟩
      rcases List.mem_cons.mp hmem with rfl | hmem
      · exact ⟨line, List.mem_cons_self, chunkf, hscan⟩
      · exact hnames' get hmem

/-! ## The rest of the loop -/

theorem serve_events (h : s.serve env input = .ok (s', l)) :
    (peerMachine env).run [.send input.sendPass, .clean input.cleanNow, .crash input.crashClk, .finish] s =
      .ok (s', l) := by
  obtain ⟨uploads, downloads⟩ := s
  rcases hsent : sendDataPackets env input.sendPass uploads with ⟨sent, up⟩
  rcases hcleaned : cleanUploadTimeout input.cleanNow sent with ⟨cleaned, up'⟩
  simp only [Peer.serve, hsent, hcleaned] at h
  split at h
  · cases h
  · rename_i d down hcrash
    cases h
    have hsend : (peerMachine env).step (.send input.sendPass) ⟨uploads, downloads⟩ =
        .ok (⟨sent, downloads⟩, up.map .inl) := by simp only [peerMachine, Peer.upload, hsent]
    have hclean : (peerMachine env).step (.clean input.cleanNow) ⟨sent, downloads⟩ =
        .ok (⟨cleaned, downloads⟩, up'.map .inl) := by simp only [peerMachine, Peer.upload, hcleaned]
    have hcrash' : (peerMachine env).step (.crash input.crashClk) ⟨cleaned, downloads⟩ =
        .ok (⟨cleaned, d⟩, down.map .inr) := by simp only [peerMachine, Peer.download, hcrash]
    have hfinish : (peerMachine env).step .finish ⟨cleaned, d⟩ = .ok (⟨cleaned, finishRequest d⟩, []) := rfl
    have hlast : (peerMachine env).run [.finish] ⟨cleaned, d⟩ = .ok (⟨cleaned, finishRequest d⟩, []) :=
      Machine.run_cons hfinish rfl
    have hall := Machine.run_cons hsend (Machine.run_cons hclean (Machine.run_cons hcrash' hlast))
    rwa [List.append_nil, ← List.append_assoc] at hall

/-! ## Iterations -/

/-- An iteration of the program is an iteration of the peer; the GET lines in it are among those that
standard input has completed, and the packet is what is in the buffer. -/
theorem iterate_events (h : p.iterate env input = .ok (p', l)) :
    ∃ it : Iteration, (peerRun env).step it p.peer = .ok (p'.peer, l) ∧
      (∀ get ∈ it.lines, ∃ userbuf lines, p.readStdin input = .ok (userbuf, lines) ∧ NamesFile get.1 lines) ∧
      it.packet = input.datagram.map fun (src, stack, datagram, clk) =>
        (src, receiveInto stack (datagram.take buflen), clk) := by
  unfold Program.iterate at h
  split at h
  · cases h
  · rename_i s₁ l₁ hsocket
    split at h
    · cases h
    · rename_i userbuf lines hstdin
      split at h
      · cases h
      · rename_i s₂ l₂ hafter
        cases h
        obtain ⟨s₃, l₃, l₄, hlines, hserve, rfl⟩ := andThen_ok hafter
        obtain ⟨gets, hgets, hnames⟩ := handleLines_events hlines
        have hrest := Machine.run_append hgets (serve_events hserve)
        refine ⟨⟨input.datagram.map fun (src, stack, datagram, clk) =>
          (src, receiveInto stack (datagram.take buflen), clk), gets, input.sendPass, input.cleanNow,
          input.crashClk⟩, ?_, fun get hmem => ⟨userbuf, lines, hstdin, hnames get hmem⟩, rfl⟩
        unfold Peer.readSocket at hsocket
        split at hsocket
        · rename_i hnone
          cases hsocket
          simpa [peerRun, Machine.batch, Iteration.events, hnone] using hrest
        · rename_i src stack datagram clk hsome
          have hpacket : (peerMachine env).step
            (.packet src (receiveInto stack (datagram.take buflen)) clk) p.peer = .ok (s₁, l₁) := hsocket
          have hall := Machine.run_cons hpacket hrest
          simpa [peerRun, Machine.batch, Iteration.events, hsome] using hall

variable {max : Nat} {unset : Nat → UnsetSlot} {has : List Chunk} {files : String → Memory}

/-- Every run of the program, on any datagrams and any bytes of standard input, is a run of the peer: so after
each iteration every sent queue agrees with what its slot has sent and every buffer with what was saved to
it, and the free slots are ready for another stream. -/
theorem program_refines_peer
    (h : (programMachine env).Reach (· = initProgram max unset has files) Machine.Any p log) :
    (peerRun env).Reach (· = initPeer max unset has files) Machine.Any p.peer log ∧
      Good QueueInv QueueStep p.peer.uploads log.uploads ∧ DownloadInv p.peer.downloads log.downloads ∧
      CleanUploads p.peer.uploads ∧ (ListedPeers env → CleanDownloads p.peer.downloads) := by
  have hrun : (peerRun env).Reach (· = initPeer max unset has files) Machine.Any p.peer log := by
    induction h with
    | start hp => exact .start (by rw [hp]; rfl)
    | step _ _ hs ih =>
      obtain ⟨it, hit, -⟩ := iterate_events hs
      exact ih.step trivial hit
  exact ⟨hrun, peerRun_invariants hrun⟩

/-- An iteration in which nothing is read. -/
def idleInput : Input where
  datagram := none
  stdin := none
  fopen _ _ := none
  stale _ := ⟨fun _ => 0, fun _ => 0⟩
  sendPass _ := passAt 0
  cleanNow := 0
  crashClk _ := 0

set_option maxRecDepth 20000 in
/-- A WHOHAS datagram is answered. -/
theorem program_refines_peer_whohas : ∃ p : Program, ∃ log : PeerLog,
    log = [.inr (.sent (some sampleSrc) (.ihave [sampleHash 0]))] ∧
    (peerRun sampleEnv).Reach (· = initPeer 1 (fun _ => unsetZero) [requestEntry (0, sampleHash 0)] fun _ _ => 0)
      Machine.Any p.peer log ∧
    Good QueueInv QueueStep p.peer.uploads log.uploads ∧ DownloadInv p.peer.downloads log.downloads ∧
    CleanUploads p.peer.uploads ∧ (ListedPeers sampleEnv → CleanDownloads p.peer.downloads) := by
  have hstart : (programMachine sampleEnv).Reach
      (· = initProgram 1 (fun _ => unsetZero) [requestEntry (0, sampleHash 0)] fun _ _ => 0) Machine.Any
      (initProgram 1 (fun _ => unsetZero) [requestEntry (0, sampleHash 0)] fun _ _ => 0) [] := .start rfl
  have hread := hstart.step (e := { idleInput with
    datagram := some (sampleSrc, fun _ => 0, (Message.whohas [sampleHash 0]).datagram, fun _ => 0) }) trivial rfl
  exact ⟨_, _, rfl, program_refines_peer hread⟩

end Bittorrent
