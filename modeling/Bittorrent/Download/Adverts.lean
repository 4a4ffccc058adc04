import Bittorrent.Download.Outcomes
import Bittorrent.Stream.Wire

/-!
# What the peers advertised

The history of a run collects, for the current request, which peer listed which hash in an IHAVE
packet (`Adverts`); a peer removed after a crash is forgotten. The connection itself remembers the
hashes of its peer's last IHAVE only, since `update_chunks` deletes the table there was, so the two
agree (`adverts_known`) as long as every IHAVE repeats what its sender listed before.

What a connection offers is a matter of the state, what was advertised one of the history, so the machine
carries both and the invariant compares them: an advert of a connected peer is among its offers.
`offers_step` says how a step changes the offers, `advertise` how it changes the history, and only an IHAVE
changes both. It replaces the offers and adds to the adverts; under `RepeatsAdverts` it lists what was there
before, so no advert is lost. In the other steps the history can only lose what the state loses (a crash
removes a connection and its adverts).
-/

namespace Bittorrent

variable {env : Env} {d d' d₁ : Downloads} {l log : DownloadLog} {p q : Int} {entry : Nat}
  {chunk : Chunk} {packet : Incoming} {clk : Clock} {hash : Hash} {picked : Option (Nat × Chunk)}

/-! ## What a step does to the offers -/

/-- The connection to the peer lists the hash. -/
def Downloads.Offers (d : Downloads) (p : Int) (hash : Hash) : Prop :=
  peerContainChunk d.connections p hash = true

instance (d : Downloads) (p : Int) (hash : Hash) : Decidable (d.Offers p hash) :=
  inferInstanceAs (Decidable (_ = true))

theorem Downloads.Offers.peers (h : d.Offers p hash) : p ∈ d.peers := peerContainChunk_peers h

theorem offers_congr (h : d'.connections = d.connections) : d'.Offers p hash ↔ d.Offers p hash := by
  rw [Downloads.Offers, h, Downloads.Offers]

theorem offers_assigned (picked : Option (Nat × Chunk)) (hd : d.peers.Nodup) :
    (d.assigned p picked clk).Offers q hash ↔ d.Offers q hash := by
  unfold Downloads.assigned
  split
  · exact peerContainChunk_mark hd
  · rw [Downloads.Offers, started_connections]
    exact peerContainChunk_mark hd

theorem Crash.offers {now : Time} {rto : Int} {crashed : Bool} (h : Crash now rto d crashed d₁)
    (hd : d.peers.Nodup) : d₁.Offers q hash ↔ d.Offers q hash ∧ q ∈ d₁.peers := by
  have hsame : d₁.connections = d.connections →
      (d₁.Offers q hash ↔ d.Offers q hash ∧ q ∈ d₁.peers) := by
    intro hconnections
    rw [offers_congr hconnections, Downloads.peers, hconnections]
    exact ⟨fun h => ⟨h, h.peers⟩, fun h => h.1⟩
  cases h with
  | calm _ => exact hsame rfl
  | early hclean _ =>
    obtain ⟨-, -, rfl⟩ := cleanDownloadTimeout_eq hclean
    exact hsame (abortDownload_frame _ d).1
  | @removed r _ _ hclean _ =>
    -- the connections but one stay
    have hmem : ∀ c, c ∈ d.connections.eraseP (fun c => decide (c.peerId = r)) ↔
        c ∈ d.connections ∧ c.peerId ≠ r := fun c => Table.mem_eraseP_key hd
    rw [Downloads.Offers, peerContainChunk_iff, mem_peers, Downloads.Offers, peerContainChunk_iff]
    constructor
    · rintro ⟨c, hc, rfl, hh⟩
      exact ⟨⟨c, ((hmem c).mp hc).1, rfl, hh⟩, c, hc, rfl⟩
    · rintro ⟨⟨c, hc, rfl, hh⟩, c', hc', hid⟩
      exact ⟨c, (hmem c).mpr ⟨hc, hid ▸ ((hmem c').mp hc').2⟩, rfl, hh⟩

/-- An IHAVE replaces the offers of its sender; a crash takes those of the removed peer; no other
step changes any. -/
def OffersAfter (ev : DownloadEvent) (d d' : Downloads) (q : Int) (hash : Hash) : Prop :=
  match ev with
  | .ihave _ p packet _ => (q = p ∧ hash ∈ updateChunks packet) ∨ (q ≠ p ∧ d.Offers q hash)
  | .crash _ _ => d.Offers q hash ∧ q ∈ d'.peers
  | _ => d.Offers q hash

theorem offers_step {ev : DownloadEvent} (hd : d.peers.Nodup)
    (h : (downloadMachine env).step ev d = .ok (d', l)) :
    d'.Offers q hash ↔ OffersAfter ev d d' q hash := by
  cases ev with
  | whohas src packet => exact inboundWhohas_fst h ▸ Iff.rfl
  | ihave src p packet clk =>
    have hout := inboundIhave_outcome h
    split_ifs at hout
    · rw [hout]
      exact (offers_assigned _ (nodup_updateConnections hd)).trans (peerContainChunk_update hd)
    · rw [hout]
      exact peerContainChunk_update hd
  | data src p packet clk =>
    rcases inboundData_outcome h with hquiet | ⟨d₁, hcompletes, rfl⟩
    · exact offers_congr hquiet.connections
    · have hconnections := hcompletes.streams.1
      rw [offers_assigned _ (by rwa [Downloads.peers, hconnections])]
      exact offers_congr hconnections
  | denied p =>
    obtain ⟨rfl, -⟩ := Prod.mk.inj (Except.ok.inj h)
    exact offers_congr (abortDownload_frame p d).1
  | crash clk rto =>
    obtain ⟨crashed, d₁, hcrash, hd'⟩ := downloadPeerCrashWrapper_outcome h
    have hout := downloadPeerCrash_outcome hcrash
    split at hd'
    · rename_i r entry chunk hpick
      subst hd'
      have hassigned : (d₁.started r entry chunk clk).Offers q hash ↔ d₁.Offers q hash :=
        offers_assigned (some (entry, chunk)) (hout.peers_nodup hd)
      have hpeers : (d₁.started r entry chunk clk).peers = d₁.peers :=
        peers_assigned (some (entry, chunk))
      rw [hassigned, OffersAfter, hpeers]
      exact hout.offers hd
    · rw [hd']
      exact hout.offers hd
  | finish =>
    obtain ⟨rfl, -⟩ := Prod.mk.inj (Except.ok.inj h)
    exact offers_congr (finishRequest_frame d).2.1
  | userGet outf parsed => exact offers_congr (userGet_frame h).2

/-! ## The history -/

/-- The hashes peers listed in an IHAVE for the current request. -/
abbrev Adverts := List (Int × Hash)

/-- The hashes an IHAVE lists, by its count byte or by its length. -/
def listedHashes (packet : Incoming) : List Hash :=
  (List.range packet.chunkCount).map packet.hashAt ++ updateChunks packet

theorem listedHashes_receive {m : Message} {hashes : List Hash} (stale : Memory) (hm : m.Lists hashes)
    (h : hashes.length ≤ chunkPerPacket) :
    listedHashes (receiveInto stale m.datagram) = hashes ++ hashes := by
  rw [listedHashes, receive_chunkCount stale hm h, receive_hashes stale hm h,
    receive_updateChunks stale hm h]

/-- What a step adds to the adverts or takes away. -/
def Adverts.hear (g : Adverts) (ev : DownloadEvent) (d' : Downloads) : Adverts :=
  match ev with
  | .ihave _ p packet _ => g ++ (listedHashes packet).map fun h => (p, h)
  | .crash _ _ => g.filter fun a => a.1 ∈ d'.peers
  | _ => g

/-- The adverts after a step; without a request there is none. -/
def advertise (g : Adverts) (_ : Downloads) (ev : DownloadEvent) (_ : DownloadLog)
    (d' : Downloads) : Adverts :=
  if d'.currentRequest.isNone then [] else g.hear ev d'

/-- The downloading side with the adverts beside its state. -/
def advertMachine (env : Env) : Machine (Downloads × Adverts) DownloadEvent DownloadAction Fault :=
  (downloadMachine env).observe advertise

/-- A peer with no connection, no stream, no request and no advert. -/
def FreshAdverts (max : Nat) (has : List Chunk) (files : String → Memory)
    (s : Downloads × Adverts) : Prop := s = (initDownloads max has files, [])

variable {max : Nat} {has : List Chunk} {files : String → Memory} {s s' : Downloads × Adverts}
  {Ok : Downloads × Adverts → DownloadLog → DownloadEvent → Prop}

theorem FreshAdverts.fst (h : FreshAdverts max has files s) : s.1 = initDownloads max has files :=
  congrArg Prod.fst h

theorem advert_peers_nodup (h : (advertMachine env).Reach (FreshAdverts max has files) Ok s log) :
    s.1.peers.Nodup :=
  peers_nodup_reach (h.forget (fun _ => FreshAdverts.fst) (fun _ _ _ _ => trivial) :
    (downloadMachine env).Reach _ Machine.Any s.1 log)

theorem adverts_nil (h : (advertMachine env).Reach (FreshAdverts max has files) Ok s log)
    (hnone : s.1.currentRequest = none) : s.2 = [] := by
  refine h.invariant (I := fun s _ => s.1.currentRequest = none → s.2 = []) (fun s hs _ => ?_)
    (fun s log ev s' l _ _ _ hs hnone => ?_) hnone
  · rw [show s = _ from hs]
  · rw [(Machine.observe_step.mp hs).2, advertise, hnone]
    rfl

theorem advertise_subset {a : Int × Hash} {g : Adverts} {ev : DownloadEvent}
    (h : a ∈ advertise g d ev l d') :
    (a ∈ g ∧ ∀ clk rto, ev = .crash clk rto → a.1 ∈ d'.peers) ∨
      ∃ src packet clk, ev = .ihave src a.1 packet clk ∧ d'.currentRequest ≠ none ∧
        a.2 ∈ listedHashes packet := by
  unfold advertise at h
  split_ifs at h with hnone
  · cases h
  · cases ev with
    | ihave src p packet clk =>
      rcases List.mem_append.mp h with h | h
      · exact Or.inl ⟨h, fun _ _ he => by cases he⟩
      · obtain ⟨k, hk, rfl⟩ := List.mem_map.mp h
        exact Or.inr ⟨src, packet, clk, rfl, by simpa using hnone, hk⟩
    | crash clk rto =>
      obtain ⟨hg, hpeer⟩ := List.mem_filter.mp h
      exact Or.inl ⟨hg, fun _ _ _ => of_decide_eq_true hpeer⟩
    | _ => exact Or.inl ⟨h, fun _ _ he => by cases he⟩

theorem advertise_old {g : Adverts} {ev : DownloadEvent}
    (hev : ∀ src p packet clk, ev ≠ .ihave src p packet clk) : ∀ a ∈ advertise g d ev l d', a ∈ g := by
  intro a h
  rcases advertise_subset h with ⟨hold, -⟩ | ⟨src, packet, clk, he, -⟩
  · exact hold
  · exact absurd he (hev src a.1 packet clk)

/-! ## Runs -/

/-- What a step must meet: an IHAVE lists by its length what its sender advertised before for this
request, and what its own count byte covers. -/
def RepeatsAdverts (s : Downloads × Adverts) (_ : DownloadLog) : DownloadEvent → Prop
  | .ihave _ p packet _ => s.1.currentRequest ≠ none → ∀ h,
      (p, h) ∈ s.2 ∨ h ∈ (List.range packet.chunkCount).map packet.hashAt → h ∈ updateChunks packet
  | _ => True

theorem repeatsAdverts_receive {m : Message} {hashes : List Hash} {src : Addr} (stale : Memory)
    (hm : m.Lists hashes) (h : hashes.length ≤ chunkPerPacket)
    (hold : ∀ k, (p, k) ∈ s.2 → k ∈ hashes) :
    RepeatsAdverts s log (.ihave src p (receiveInto stale m.datagram) clk) := by
  intro _ k hk
  rw [receive_updateChunks stale hm h]
  rw [receive_chunkCount stale hm h, receive_hashes stale hm h] at hk
  exact hk.elim (hold k) id

/-- In a run whose IHAVE packets repeat the earlier ones every advert of a connected peer is known,
and while its entry is unfinished the peer can be assigned one. -/
theorem adverts_known
    (h : (advertMachine env).Reach (FreshAdverts max has files) RepeatsAdverts s log) :
    ∀ p hash, (p, hash) ∈ s.2 → peerContainChunk s.1.connections p hash = true ∧
      (s.1.Unstarted hash → pickANewChunk p s.1 ≠ none) := by
  have hinv : ∀ a ∈ s.2, s.1.Offers a.1 a.2 := by
    refine h.invariant (I := fun s _ => ∀ a ∈ s.2, s.1.Offers a.1 a.2) (fun s hs a ha => ?_)
      fun s log ev s' l hr hI hok hs a ha => ?_
    · rw [show s = _ from hs] at ha
      cases ha
    · obtain ⟨hs, hhistory⟩ := Machine.observe_step.mp hs
      rw [hhistory] at ha
      refine (offers_step (advert_peers_nodup hr) hs).mpr ?_
      rcases advertise_subset ha with ⟨hold, hcrash⟩ | ⟨src, packet, clk, rfl, hrequest, hlisted⟩
      · have hoffers := hI a hold
        cases ev with
        | ihave src p packet clk =>
          by_cases hid : a.1 = p
          · subst hid
            refine Or.inl ⟨rfl, hok (fun hnone => ?_) a.2 (Or.inl hold)⟩
            rw [adverts_nil hr hnone] at hold
            cases hold
          · exact Or.inr ⟨hid, hoffers⟩
        | crash clk rto => exact ⟨hoffers, hcrash clk rto rfl⟩
        | _ => exact hoffers
      · refine Or.inl ⟨rfl, ?_⟩
        rcases List.mem_append.mp hlisted with hcounted | hlength
        · refine hok (fun hnone => hrequest ?_) a.2 (Or.inr hcounted)
          rw [inboundIhave_outcome hs, hnone]
          exact (updateConnections_currentRequest packet).1.trans hnone
        · exact hlength
  intro p hash hadvert
  have hoffers := hinv (p, hash) hadvert
  exact ⟨hoffers, fun hun hpick => pickEntry_none_iff.mp hpick hash hoffers hun⟩

/-- The second IHAVE of peer 1 lists both chunks. -/
theorem adverts_known_two : ∃ s : Downloads × Adverts, (1, sampleHash 0) ∈ s.2 ∧
    peerContainChunk s.1.connections 1 (sampleHash 0) = true := by
  have hstart : (advertMachine sampleEnv).Reach (FreshAdverts 1 [] fun _ _ => 0) RepeatsAdverts
    (initDownloads 1 [] fun _ _ => 0, []) [] := .start rfl
  have hget := hstart.step (e := DownloadEvent.userGet "out"
    (some [(0, sampleHash 0), (1, sampleHash 1)])) trivial rfl
  have hone := hget.step (e := DownloadEvent.ihave sampleSrc 1
    (samplePacket (.ihave [sampleHash 0])) fun _ => 0)
    (repeatsAdverts_receive _ (Or.inr rfl) (by decide) fun k hk => by cases hk) rfl
  have htwo := hone.step (e := DownloadEvent.ihave sampleSrc 1
    (samplePacket (.ihave [sampleHash 0, sampleHash 1])) fun _ => 0)
    (repeatsAdverts_receive _ (Or.inr rfl) (by decide) fun k hk => by
      change (1, k) ∈ [] ++ (listedHashes (samplePacket (.ihave [sampleHash 0]))).map fun h => (1, h)
        at hk
      rw [samplePacket, listedHashes_receive _ (Or.inr rfl) (by decide)] at hk
      simp_all) rfl
  refine ⟨_, ?_, (adverts_known htwo 1 _ ?_).1⟩
  · decide
  · decide

/-- Peer 1 lists one chunk in each of two IHAVE packets: the first is forgotten. -/
theorem advert_forgotten : ∃ (s : Downloads × Adverts) (log : DownloadLog),
    (advertMachine sampleEnv).Reach (FreshAdverts 1 [] fun _ _ => 0) Machine.Any s log ∧
      (1, sampleHash 0) ∈ s.2 ∧ peerContainChunk s.1.connections 1 (sampleHash 0) = false := by
  have hstart : (advertMachine sampleEnv).Reach (FreshAdverts 1 [] fun _ _ => 0) Machine.Any
    (initDownloads 1 [] fun _ _ => 0, []) [] := .start rfl
  have hreach := hstart.runAny
    [.userGet "out" (some [(0, sampleHash 0), (1, sampleHash 1)]),
      .ihave sampleSrc 1 (samplePacket (.ihave [sampleHash 0])) fun _ => 0,
      .ihave sampleSrc 1 (samplePacket (.ihave [sampleHash 1])) fun _ => 0] rfl
  refine ⟨_, _, hreach, ?_, ?_⟩
  · decide
  · decide

end Bittorrent
