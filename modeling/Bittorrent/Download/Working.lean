import Bittorrent.Download.Streams

/-!
# Working connections and active streams

A connection's state is meant to say whether its peer is sending (`WorkingIffActive`), and the pick
after a crash believes it. `mark_peer_state` runs before `start_download` is known to succeed, runs
for an IHAVE that offers nothing new while its sender is still sending, and does not run for a DENIED
or for a timeout that returns early; a step that does none of these keeps the two in agreement.

The agreement is stated by counting, for a set `P` of peers (`Agree P`), because every handler settles one
peer at a time: `Agree.assigned` takes the agreement for all peers but one to the agreement for all, if the
one is left as it should be, and `Agree.abort` does it for a closed stream. `agree_step` applies one of them
to each outcome of a handler. What the condition must exclude is then what is left over: the peer of an
IHAVE with nothing to pick, of a stream that ends and is not followed by another, of a DENIED, and of a
timeout that returns before the connection is removed.

The end of a chunk is told from the state before the packet: `EndsWithout` adds up what will be NOT_STARTED
once the chunk is verified or given up, and `Completes.endsWithout` shows that it is what the pick then
finds.
-/

namespace Bittorrent

variable {env : Env} {d d' d₁ : Downloads} {l log : DownloadLog} {p q : Int} {entry : Nat}
  {chunk : Chunk} {packet : Incoming} {clk : Clock} {picked : Option (Nat × Chunk)}

/-- A connection is WORKING exactly if some active slot has its peer. -/
def WorkingIffActive (d : Downloads) : Prop :=
  ∀ c ∈ d.connections, c.state = .working ↔
    ∃ slot ∈ d.slots, slot.downloadId ≠ idNull ∧ slot.downloadId = c.peerId

/-- The same by counting, for the connections to the peers in `P`. -/
def Agree (P : Int → Prop) (d : Downloads) : Prop :=
  ∀ c ∈ d.connections, P c.peerId → (c.state = .working ↔ 0 < d.streams c.peerId)

theorem workingIffActive_iff (hpeers : PeersValid d.connections) :
    WorkingIffActive d ↔ Agree (fun _ => True) d := by
  have hsame : ∀ c ∈ d.connections, (0 < d.streams c.peerId ↔
      ∃ slot ∈ d.slots, slot.downloadId ≠ idNull ∧ slot.downloadId = c.peerId) := by
    intro c hc
    rw [streams_pos]
    constructor
    · rintro ⟨slot, hmem, hid⟩
      exact ⟨slot, hmem, hid ▸ hpeers c hc, hid⟩
    · rintro ⟨slot, hmem, -, hid⟩
      exact ⟨slot, hmem, hid⟩
  constructor
  · exact fun h c hc _ => (h c hc).trans (hsame c hc).symm
  · exact fun h c hc => (h c hc trivial).trans (hsame c hc)

theorem Agree.congr {P : Int → Prop} (h : Agree P d) (hconnections : d'.connections = d.connections)
    (hstreams : ∀ c ∈ d.connections, P c.peerId → d'.streams c.peerId = d.streams c.peerId) :
    Agree P d' := by
  intro c hc hP
  rw [hconnections] at hc
  rw [hstreams c hc hP]
  exact h c hc hP

/-- `assign` settles the peer it is for: without a chunk the peer must have no stream, with one it
must get a slot or have one. -/
theorem Agree.assigned (h : Agree (· ≠ p) d) (hd : d.peers.Nodup)
    (hpeers : PeersValid d.connections) (hp : p ≠ idNull)
    (hnone : picked = none → p ∈ d.peers → d.streams p = 0)
    (hsome : picked ≠ none → 0 < d.streams idNull ∨ 0 < d.streams p) :
    Agree (fun _ => True) (d.assigned p picked clk) := by
  intro c hc _
  unfold Downloads.assigned at hc ⊢
  split at hc
  · rw [markPeerState_streams]
    rcases (mem_markPeerState hd).mp hc with ⟨c', hc', hid, rfl⟩ | ⟨hc, hne⟩
    · have hzero := hnone rfl (mem_peers.mpr ⟨c', hc', hid⟩)
      simp only [hid, hzero]
      decide
    · exact h c hc hne
  · rename_i entry chunk
    rw [started_connections] at hc
    have hnull : idNull ≠ c.peerId := by
      rcases (mem_markPeerState hd).mp hc with ⟨c', hc', -, rfl⟩ | ⟨hc, -⟩
      · exact (hpeers c' hc').symm
      · exact (hpeers c hc).symm
    -- a free slot becomes the peer's; without one no slot changes
    have hstreams : (d.started p entry chunk clk).streams c.peerId = d.streams c.peerId ∨
        (d.started p entry chunk clk).streams c.peerId =
          d.streams c.peerId + (if p = c.peerId then 1 else 0) := by
      rcases Nat.eq_zero_or_pos (d.streams idNull) with hfree | hfree
      · exact Or.inl (started_stuck hfree)
      · have hcount : (d.started p entry chunk clk).streams c.peerId +
            (if idNull = c.peerId then 1 else 0) =
              d.streams c.peerId + (if p = c.peerId then 1 else 0) := started_streams hfree
        rw [if_neg hnull, Nat.add_zero] at hcount
        exact Or.inr hcount
    rcases (mem_markPeerState hd).mp hc with ⟨c', hc', hid, rfl⟩ | ⟨hc, hne⟩
    · refine iff_of_true rfl ?_
      simp only [hid]
      rcases Nat.eq_zero_or_pos (d.streams idNull) with hfree | hfree
      · rw [started_stuck hfree]
        exact (hsome (Option.some_ne_none _)).resolve_left (by omega)
      · have hcount : (d.started p entry chunk clk).streams p + (if idNull = p then 1 else 0) =
            d.streams p + (if p = p then 1 else 0) := started_streams hfree
        rw [if_neg hp.symm, if_pos rfl] at hcount
        omega
    · rw [if_neg (Ne.symm hne), Nat.add_zero, or_self] at hstreams
      rw [hstreams]
      exact h c hc hne

/-- A stream of `p` is closed; of its other streams one must be left, if it is connected. -/
theorem Agree.abort (h : Agree (fun _ => True) d) (hpeers : PeersValid d.connections)
    (hp : p ∈ d.peers → d.streams p ≠ 1) : Agree (fun _ => True) (abortDownload p d) := by
  rcases Nat.eq_zero_or_pos (d.streams p) with hzero | hpos
  · rwa [abortDownload_none (streams_zero.mp hzero)]
  · intro c hc _
    rw [(abortDownload_frame p d).1] at hc
    have hcount := abortDownload_streams (q := c.peerId) hpos
    rw [if_neg (hpeers c hc).symm] at hcount
    rw [h c hc trivial]
    by_cases hid : p = c.peerId
    · have hone := hp (mem_peers.mpr ⟨c, hc, hid.symm⟩)
      rw [if_pos hid] at hcount
      rw [hid] at hone hpos
      omega
    · rw [if_neg hid] at hcount
      omega

/-! ## Runs -/

/-- The packet is the expected one and fills its chunk, and of its sender's hashes none is then NOT_STARTED:
neither another entry nor this one, which has the hash it must have. -/
structure EndsWithout (env : Env) (p : Int) (packet : Incoming) (now : Time) (d : Downloads) (chunk : Chunk)
    (data : Memory) : Prop where
  expected : packet.seqNumber = (trackDataPacket p packet.seqNumber packet.dataLength now d).1
  filled : ∃ chunk', Filled packet chunk chunk' data
  started : ∀ k, peerContainChunk d.connections p k = true → ¬ d.Unstarted k ∧
    (k = chunk.hash → env.shahash (readBytes data 0 btChunkSize) = chunk.hash)

/-- What a step must meet. An IHAVE that offers nothing to pick comes from a peer that has no stream,
one that does finds a free slot or a stream of its sender; a chunk completes with nothing left to
pick only when its sender has no other stream; neither a DENIED nor the timeout of a peer whose id is
not positive ends the last stream of a connection. -/
def KeepsStates (env : Env) (d : Downloads) (_ : DownloadLog) : DownloadEvent → Prop
  | .ihave _ p packet _ => p ≠ idNull ∧ (d.currentRequest ≠ none →
      (pickAChunk packet d = none → d.streams p = 0) ∧
        (pickAChunk packet d ≠ none → 0 < d.streams idNull ∨ 0 < d.streams p))
  | .data _ p packet clk => p ≠ idNull ∧ ∀ index slot hash request entry chunk data,
      Target d p index slot hash request entry chunk → EndsWithout env p packet (clk 0) d chunk data →
        p ∈ d.peers → d.streams p = 1
  | .denied p => p ∈ d.peers → d.streams p ≠ 1
  | .crash clk rto => ∀ idle, d.slots.find? (DownloadSlot.timedOut (clk 0) rto) = some idle →
      idle.downloadId ≤ 0 → idle.downloadId ∈ d.peers → d.streams idle.downloadId ≠ 1
  | _ => True

theorem validPeer_of_keepsStates {ev : DownloadEvent} (h : KeepsStates env d log ev) :
    ValidPeer ev := by
  cases ev with
  | ihave src p packet clk => exact h.1
  | data src p packet clk => exact h.1
  | _ => trivial

theorem idle_of_no_request (hinv : DownloadInv d log) (hnone : d.currentRequest = none)
    (hq : q ≠ idNull) : d.streams q = 0 := by
  by_contra hpos
  obtain ⟨slot, hmem, rfl⟩ := streams_pos.mp (Nat.pos_of_ne_zero hpos)
  obtain ⟨i, hi⟩ := List.mem_iff_getElem?.mp hmem
  obtain ⟨request, hrequest⟩ := hinv.hasRequest hi (hinv.named i slot hi hq)
  rw [hnone] at hrequest
  cases hrequest

theorem agree_ihave (h : Agree (fun _ => True) d) (hinv : DownloadInv d log) (hd : d.peers.Nodup)
    (hpeers : PeersValid d.connections) {src : Addr}
    (hok : KeepsStates env d log (.ihave src p packet clk))
    (hs : inboundIhave src p packet clk d = .ok (d', l)) : Agree (fun _ => True) d' := by
  obtain ⟨hp, hok⟩ := hok
  have hslots := (updateConnections_currentRequest (p := p) (d := d) packet).2
  have hothers : Agree (· ≠ p) (updateConnections p packet d) := by
    intro c hc hne
    rw [streams_congr hslots]
    rcases (mem_updateConnections hd).mp hc with ⟨hid, -, -⟩ | ⟨hc, -⟩
    · exact absurd hid hne
    · exact h c hc trivial
  rw [inboundIhave_outcome hs]
  split_ifs with hsome
  · obtain ⟨hnone, hstart⟩ := hok (by rw [Option.isSome_iff_ne_none] at hsome; exact hsome)
    refine hothers.assigned (nodup_updateConnections hd) ?_ hp (fun hpick _ => ?_) fun hpick => ?_
    · intro c hc
      rcases (mem_updateConnections hd).mp hc with ⟨hid, -, -⟩ | ⟨hc, -⟩
      · exact hid ▸ hp
      · exact hpeers c hc
    · rw [streams_congr hslots]
      exact hnone hpick
    · rw [streams_congr hslots, streams_congr hslots]
      exact hstart hpick
  · intro c hc _
    by_cases hid : c.peerId = p
    · rw [streams_congr hslots]
      rcases (mem_updateConnections hd).mp hc with
        ⟨-, -, ⟨c', hc', hid', hstate⟩ | ⟨-, hstate⟩⟩ | ⟨-, hne⟩
      · rw [hstate, hid, ← hid']
        exact h c' hc' trivial
      · -- a new connection is idle, and so is its peer
        have hnone : d.currentRequest = none := by simpa using hsome
        rw [hid, hstate, idle_of_no_request hinv hnone hp]
        decide
      · exact absurd hid hne
    · exact hothers c hc hid

theorem Completes.endsWithout {now : Time} (h : Completes env p packet now d d₁) (hinv : DownloadInv d log)
    (hpick : pickANewChunk p d₁ = none) : ∃ index slot hash request entry chunk data,
      Target d p index slot hash request entry chunk ∧ EndsWithout env p packet now d chunk data := by
  obtain ⟨index, slot, hash, request, entry, chunk, chunk', data, htarget, hfilled, hexpected, hunstarted⟩ :=
    h.filled
  have hreceiving := hfilled.receiving (hinv.buffered request entry chunk htarget.current htarget.get)
  have hunstarted := hunstarted (by rw [hreceiving]; decide)
  refine ⟨index, slot, hash, request, entry, chunk, data, htarget, hexpected, ⟨chunk', hfilled⟩, fun k hk => ?_⟩
  have hnone : ¬ d₁.Unstarted k := pickEntry_none_iff.mp hpick k (by rwa [h.streams.1])
  rw [hunstarted k, not_or] at hnone
  exact ⟨hnone.1, fun hsame => by_contra fun hbad => hnone.2 ⟨hsame, hbad⟩⟩

theorem agree_data (h : Agree (fun _ => True) d) (hinv : DownloadInv d log) (hd : d.peers.Nodup)
    (hpeers : PeersValid d.connections) {src : Addr}
    (hok : KeepsStates env d log (.data src p packet clk))
    (hs : inboundData env src p packet clk d = .ok (d', l)) : Agree (fun _ => True) d' := by
  obtain ⟨hp, hok⟩ := hok
  rcases inboundData_outcome hs with hquiet | ⟨d₁, hcompletes, rfl⟩
  · exact h.congr hquiet.connections fun c _ _ => hquiet.streams
  · obtain ⟨hconnections, hpos, hstreams⟩ := hcompletes.streams
    have hothers : Agree (· ≠ p) d₁ := by
      intro c hc hne
      rw [hconnections] at hc
      have hcount := hstreams c.peerId
      rw [if_neg (Ne.symm hne), if_neg (hpeers c hc).symm] at hcount
      rw [← Nat.add_zero (d₁.streams _), hcount]
      exact h c hc trivial
    have hfree := hstreams idNull
    rw [if_neg hp, if_pos rfl] at hfree
    refine hothers.assigned ?_ ?_ hp (fun hpick hmem => ?_) fun _ => Or.inl (by omega)
    · rwa [Downloads.peers, hconnections]
    · rwa [hconnections]
    · rw [Downloads.peers, hconnections] at hmem
      obtain ⟨index, slot, hash, request, entry, chunk, data, htarget, hends⟩ :=
        hcompletes.endsWithout hinv hpick
      have hone := hok index slot hash request entry chunk data htarget hends hmem
      have hcount := hstreams p
      rw [if_pos rfl, if_neg hp.symm] at hcount
      omega

theorem Crash.agree {now : Time} {rto : Int} {crashed : Bool} (hc : Crash now rto d crashed d₁)
    (h : Agree (fun _ => True) d) (hinv : DownloadInv d log) (hd : d.peers.Nodup)
    (hpeers : PeersValid d.connections)
    (hok : ∀ idle, d.slots.find? (DownloadSlot.timedOut now rto) = some idle →
      idle.downloadId ≤ 0 → idle.downloadId ∈ d.peers → d.streams idle.downloadId ≠ 1) :
    Agree (fun _ => True) d₁ := by
  cases hc with
  | calm _ => exact h
  | @early q hash _ hclean hreturn =>
    obtain ⟨hq, hpos, rfl⟩ := cleanDownloadTimeout_eq hclean
    obtain ⟨idle, hfind, rfl, -⟩ := cleanDownloadTimeout_find hclean
    refine h.abort hpeers fun hmem => ?_
    rcases hreturn with hsign | hempty | hnone
    · exact hok idle hfind hsign hmem
    · rw [Downloads.peers, hempty] at hmem
      cases hmem
    · rw [idle_of_no_request hinv hnone hq] at hpos
      exact absurd hpos (Nat.lt_irrefl 0)
  | @removed q hash _ hclean hsign =>
    obtain ⟨hq, hpos, rfl⟩ := cleanDownloadTimeout_eq hclean
    intro c hc _
    obtain ⟨hc, hne⟩ := (Table.mem_eraseP_key hd).mp hc
    have hcount := abortDownload_streams (q := c.peerId) hpos
    rw [if_neg (Ne.symm hne), if_neg (hpeers c hc).symm, Nat.add_zero, Nat.add_zero] at hcount
    rw [streams_removed, hcount]
    exact h c hc trivial

theorem agree_step {ev : DownloadEvent} (h : Agree (fun _ => True) d) (hinv : DownloadInv d log)
    (hd : d.peers.Nodup) (hpeers : PeersValid d.connections) (hok : KeepsStates env d log ev)
    (hs : (downloadMachine env).step ev d = .ok (d', l)) : Agree (fun _ => True) d' := by
  cases ev with
  | whohas src packet => exact inboundWhohas_fst hs ▸ h
  | ihave src p packet clk => exact agree_ihave h hinv hd hpeers hok hs
  | data src p packet clk => exact agree_data h hinv hd hpeers hok hs
  | denied p =>
    obtain ⟨rfl, -⟩ := Prod.mk.inj (Except.ok.inj hs)
    exact h.abort hpeers hok
  | crash clk rto =>
    obtain ⟨crashed, d₁, hcrash, rfl⟩ := downloadPeerCrashWrapper_outcome hs
    have hout := downloadPeerCrash_outcome hcrash
    have h₁ := hout.agree h hinv hd hpeers hok
    have hd₁ := hout.peers_nodup hd
    have hpeers₁ : PeersValid d₁.connections := fun c hc => hpeers c (hout.connections_subset c hc)
    split
    · rename_i q entry chunk hpick
      obtain ⟨⟨c, hc, hid⟩, -⟩ := pickAChunkAfterCrash_some hpick
      have hassigned : Agree (fun _ => True) (d₁.assigned q (some (entry, chunk)) clk) :=
        Agree.assigned (fun c hc _ => h₁ c hc trivial) hd₁ hpeers₁ (hid ▸ hpeers₁ c hc)
          (fun hnone => by cases hnone) fun _ => Or.inl (hout.free rfl)
      exact hassigned
    · exact h₁
  | finish =>
    obtain ⟨rfl, -⟩ := Prod.mk.inj (Except.ok.inj hs)
    obtain ⟨hslots, hconnections, -⟩ := finishRequest_frame d
    exact h.congr hconnections fun _ _ _ => streams_congr hslots
  | userGet outf parsed =>
    obtain ⟨hslots, hconnections⟩ := userGet_frame hs
    exact h.congr hconnections fun _ _ _ => streams_congr hslots

/-- In a run whose steps settle the peers they touch, the connections' states tell who is sending. -/
theorem working_iff_active {max : Nat} {has : List Chunk} {files : String → Memory}
    (h : (downloadMachine env).Reach (· = initDownloads max has files) (KeepsStates env) d log) :
    WorkingIffActive d := by
  have hvalid : ∀ d log ev, KeepsStates env d log ev → ValidPeer ev :=
    fun _ _ _ => validPeer_of_keepsStates
  refine (workingIffActive_iff (peersValid_reach hvalid h)).mpr ?_
  refine h.invariant (I := fun d _ => Agree (fun _ => True) d) (fun d hd => ?_)
    fun d log ev d' l hr hI hok hs =>
      agree_step hI (downloadInv_reach hr) (peers_nodup_reach hr) (peersValid_reach hvalid hr) hok hs
  rw [hd]
  intro c hc
  cases hc

/-- Peer 1 offers the one chunk of the request and gets the one slot. -/
theorem working_iff_active_one : ∃ d : Downloads,
    (d.connections.map fun c => (c.peerId, c.state)) = [(1, .working)] ∧ d.streams 1 = 1 ∧
      WorkingIffActive d := by
  have hstart : (downloadMachine sampleEnv).Reach (· = initDownloads 1 [] fun _ _ => 0)
    (KeepsStates sampleEnv) (initDownloads 1 [] fun _ _ => 0) [] := .start rfl
  have hget := hstart.step (e := DownloadEvent.userGet "out" (some [(0, sampleHash 0)])) trivial rfl
  have hone := hget.step (e := DownloadEvent.ihave sampleSrc 1
    (samplePacket (.ihave [sampleHash 0])) fun _ => 0)
    ⟨Int.one_ne_zero, fun _ => ⟨fun hnone => absurd hnone (Option.some_ne_none _),
      fun _ => Or.inl Nat.one_pos⟩⟩ rfl
  exact ⟨_, rfl, rfl, working_iff_active hone⟩

/-- With one slot: peer 1 offers the chunk it is sending again; or a chunk of peer 2 is picked while
peer 1 sends; or peer 1 denies. The connection is idle with a stream, or WORKING without one. -/
theorem states_disagree :
    (∃ d log, (downloadMachine sampleEnv).Reach (· = initDownloads 1 [] fun _ _ => 0) ValidPeers d log ∧
      (d.connections.map fun c => (c.peerId, c.state)) = [(1, .notWorking)] ∧ d.streams 1 = 1 ∧
      ¬ WorkingIffActive d) ∧
    (∃ d log, (downloadMachine sampleEnv).Reach (· = initDownloads 1 [] fun _ _ => 0) ValidPeers d log ∧
      (d.connections.map fun c => (c.peerId, c.state)) = [(2, .working), (1, .working)] ∧
      d.streams 2 = 0 ∧ ¬ WorkingIffActive d) ∧
    ∃ d log, (downloadMachine sampleEnv).Reach (· = initDownloads 1 [] fun _ _ => 0) ValidPeers d log ∧
      (d.connections.map fun c => (c.peerId, c.state)) = [(1, .working)] ∧ d.streams 1 = 0 ∧
      ¬ WorkingIffActive d := by
  have hidle : ∀ {d : Downloads} {c : Connection}, c ∈ d.connections → c.state = .working →
      c.peerId ≠ idNull → d.streams c.peerId = 0 → ¬ WorkingIffActive d := by
    intro d c hc hworking hid hzero h
    obtain ⟨slot, hmem, -, hslot⟩ := (h c hc).mp hworking
    exact absurd (streams_pos.mpr ⟨slot, hmem, hslot⟩) (by omega)
  refine ⟨⟨_, _, ValidPeers.run _ _ _ _ [.userGet "out" (some [(0, sampleHash 0)]),
      .ihave sampleSrc 1 (samplePacket (.ihave [sampleHash 0])) fun _ => 0,
      .ihave sampleSrc 1 (samplePacket (.ihave [sampleHash 0])) fun _ => 0]
      (by simp [ValidPeer, idNull]) rfl, rfl, rfl, fun h => ?_⟩,
    ⟨_, _, ValidPeers.run _ _ _ _ [.userGet "out" (some [(0, sampleHash 0), (1, sampleHash 1)]),
      .ihave sampleSrc 1 (samplePacket (.ihave [sampleHash 0])) fun _ => 0,
      .ihave sampleSrc 2 (samplePacket (.ihave [sampleHash 1])) fun _ => 0]
      (by simp [ValidPeer, idNull]) rfl, rfl, rfl,
      hidle List.mem_cons_self rfl (by decide) rfl⟩,
    ⟨_, _, ValidPeers.run _ _ _ _ [.userGet "out" (some [(0, sampleHash 0)]),
      .ihave sampleSrc 1 (samplePacket (.ihave [sampleHash 0])) fun _ => 0, .denied 1]
      (by simp [ValidPeer, idNull]) rfl, rfl, rfl,
      hidle List.mem_cons_self rfl (by decide) rfl⟩⟩
  have hstate := (h _ List.mem_cons_self).mpr ⟨_, List.mem_cons_self, Int.one_ne_zero, rfl⟩
  cases hstate

end Bittorrent
