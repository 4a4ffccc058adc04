import Bittorrent.Download.Adverts
import Bittorrent.Download.Streams

/-!
# Stalls

New streams are started by an IHAVE, by the end of a chunk and after a crash, and each of these looks
for candidates of its own: in the packet, at the sender, among the idle connections. A DENIED looks
for none. So a request can be left with an unfinished entry that a connected peer advertised and no
active slot (`Stalled`); a run whose steps close the last stream only when nothing is left to start
never is.

The invariant is that something is active as long as something is wanted, and the adverts stand beside the
state (`advertMachine`), since the connections forget them. A step can break it in two ways, and `busy_step`
goes through the handlers for both:

* Something becomes wanted. Only an IHAVE does that, and it tries to start a stream with its sender; that
  none starts means that what it lists is not unfinished, or that all slots are active (`busy_started`).
* The last stream ends. At the end of a chunk its sender is asked for another one, and a failed pick shows
  that the sender offers nothing unfinished (`SurvivesEnd.ends`); after a crash the idle connections are
  searched (`Crash.busy`). The condition then asks that no other peer is left with something to offer.

A DENIED closes a stream and looks for nothing, so there the stream must not be the last one
(`busy_denied`), and `denied_stalls` is the run in which it is.
-/

namespace Bittorrent

variable {env : Env} {d d' d₁ : Downloads} {l log logged : DownloadLog} {p q : Int} {entry : Nat}
  {chunk : Chunk} {packet : Incoming} {clk : Clock} {hash : Hash} {g g' : Adverts}

/-! ## Active slots -/

/-- At least one slot is active. -/
def Downloads.Busy (d : Downloads) : Prop := ∃ slot ∈ d.slots, slot.downloadId ≠ idNull

instance (d : Downloads) : Decidable d.Busy :=
  inferInstanceAs (Decidable (∃ slot ∈ d.slots, slot.downloadId ≠ idNull))

/-- A slot besides the first of the peer is active. -/
def Downloads.BusyBesides (d : Downloads) (p : Int) : Prop :=
  1 < d.streams p ∨ ∃ q, q ≠ p ∧ q ≠ idNull ∧ 0 < d.streams q

theorem busy_iff : d.Busy ↔ ∃ q, q ≠ idNull ∧ 0 < d.streams q := by
  constructor
  · rintro ⟨slot, hmem, hactive⟩
    exact ⟨slot.downloadId, hactive, streams_pos.mpr ⟨slot, hmem, rfl⟩⟩
  · rintro ⟨q, hq, hpos⟩
    obtain ⟨slot, hmem, rfl⟩ := streams_pos.mp hpos
    exact ⟨slot, hmem, hq⟩

theorem busy_congr (h : ∀ q, d'.streams q = d.streams q) : d'.Busy ↔ d.Busy := by
  simp only [busy_iff, h]

theorem Downloads.BusyBesides.close (h : d.BusyBesides p) (hp : p ≠ idNull)
    (hcount : ∀ q, d'.streams q + (if p = q then 1 else 0) =
      d.streams q + (if idNull = q then 1 else 0)) : d'.Busy := by
  rw [busy_iff]
  rcases h with hmany | ⟨q, hqp, hq, hpos⟩
  · have hcount := hcount p
    rw [if_pos rfl, if_neg hp.symm] at hcount
    exact ⟨p, hp, by omega⟩
  · have hcount := hcount q
    rw [if_neg hqp.symm, if_neg hq.symm] at hcount
    exact ⟨q, hq, by omega⟩

theorem busy_started (hp : p ≠ idNull) (hslots : d.slots ≠ []) :
    (d.started p entry chunk clk).Busy := by
  rcases Nat.eq_zero_or_pos (d.streams idNull) with hfree | hfree
  · rw [busy_congr fun q => started_stuck hfree]
    obtain ⟨slot, hmem⟩ := List.exists_mem_of_ne_nil _ hslots
    refine ⟨slot, hmem, fun hnull => ?_⟩
    exact absurd (streams_pos.mpr ⟨slot, hmem, hnull⟩) (by omega)
  · have hcount : (d.started p entry chunk clk).streams p + (if idNull = p then 1 else 0) =
        d.streams p + (if p = p then 1 else 0) := started_streams hfree
    rw [if_pos rfl, if_neg hp.symm] at hcount
    exact busy_iff.mpr ⟨p, hp, by omega⟩

theorem Move.length {valid linked : Prop} (h : Move env valid linked d l d') :
    d'.slots.length = d.slots.length := by
  cases h with
  | crashed _ _ _ _ _ _ => rw [resetChunk_slots, Downloads.write, List.length_set]
  | tracked => exact List.length_set
  | opened => exact List.length_set
  | failed => exact List.length_set
  | verified => exact List.length_set
  | denied => exact List.length_set
  | _ => rfl

/-- There are `max` slots. -/
theorem slots_length_reach {max : Nat} {has : List Chunk} {files : String → Memory}
    {Ok : Downloads → DownloadLog → DownloadEvent → Prop}
    (h : (downloadMachine env).Reach (· = initDownloads max has files) Ok d log) :
    d.slots.length = max := by
  refine run_invariant False False (I := fun d _ => d.slots.length = max) (fun d hd => ?_)
    (fun _ _ _ _ hv => hv.elim) (fun _ _ _ _ _ hl => hl.elim) (fun d _ _ d' hI hm => hm.length.trans hI)
    (fun d _ outf parsed l d' hI _ hs => ?_) h
  · rw [hd]
    exact List.length_replicate
  · rw [(userGet_frame hs).1]
    exact hI

/-! ## What is left to start -/

/-- A connected peer advertised an unfinished entry for the current request. -/
def Wanted (d : Downloads) (g : Adverts) : Prop :=
  ∃ p hash, (p, hash) ∈ g ∧ d.Offers p hash ∧ d.Unstarted hash

theorem Wanted.mono (h : Wanted d' g') (hadverts : ∀ a ∈ g', a ∈ g)
    (hoffers : ∀ p hash, d'.Offers p hash → d.Offers p hash)
    (hunstarted : ∀ hash, d'.Unstarted hash → d.Unstarted hash) : Wanted d g := by
  obtain ⟨p, hash, hadvert, hoffer, hun⟩ := h
  exact ⟨p, hash, hadverts _ hadvert, hoffers p hash hoffer, hunstarted hash hun⟩

/-- Nothing is active although something is left to start. -/
def Stalled (s : Downloads × Adverts) : Prop := Wanted s.1 s.2 ∧ ¬ s.1.Busy

theorem unstarted_none (h : d.currentRequest = none) : ¬ d.Unstarted hash := by
  intro hun
  obtain ⟨request, hrequest, -⟩ := unstarted_iff.mp hun
  rw [h] at hrequest
  cases hrequest

/-! ## Runs -/

/-- The packet leaves room for the next stream: it is not for the last active slot, or it does not fill its
chunk, or its sender lists another unfinished one, or it lists whatever unfinished chunk or copy of this
one another peer advertised. -/
def SurvivesEnd (d : Downloads) (g : Adverts) (p : Int) (packet : Incoming) : Prop :=
  ∀ index slot hash request entry chunk, Target d p index slot hash request entry chunk →
    chunk.receivedByteNumber + packet.payloadSize = btChunkSize → d.BusyBesides p ∨
      (∃ k, d.Offers p k ∧ d.Unstarted k) ∨
      ∀ q k, (q, k) ∈ g → d.Offers q k → d.Unstarted k ∨ k = chunk.hash → d.Offers p k

/-- The stream that times out, if there is one, is not the last; or its peer has a positive id and a
connection, and if another connection lists an unfinished chunk or the one that is reset, an idle one
does. -/
def SurvivesTimeout (now : Time) (rto : Int) (d : Downloads) : Prop :=
  ∀ idle hash, d.slots.find? (DownloadSlot.timedOut now rto) = some idle →
    idle.downloadChunk = some hash → d.BusyBesides idle.downloadId ∨
      (0 < idle.downloadId ∧ idle.downloadId ∈ d.peers ∧
        ∀ q k, q ≠ idle.downloadId → d.Offers q k → d.Unstarted k ∨ k = hash →
          ∃ c ∈ d.connections, TakesOver d idle.downloadId hash c)

/-- What a step must meet. An IHAVE that finds no slot active and lists by its length a chunk that is not
started lists one by its count byte. A DENIED does not close the last active slot; a packet and a timeout
that do leave the pick that follows a candidate wherever there is one. -/
def KeepsGoing (s : Downloads × Adverts) (_ : DownloadLog) : DownloadEvent → Prop
  | .ihave _ p packet _ => p ≠ idNull ∧
      (s.1.Busy ∨ ∀ k ∈ updateChunks packet, s.1.Unstarted k →
        ∃ k', s.1.Unstarted k' ∧ packetContainChunk packet k' = true)
  | .data _ p packet _ => p ≠ idNull ∧ SurvivesEnd s.1 s.2 p packet
  | .denied p => p ≠ idNull → 0 < s.1.streams p → s.1.BusyBesides p
  | .crash clk rto => SurvivesTimeout (clk 0) rto s.1
  | _ => True

theorem validPeer_of_keepsGoing {s : Downloads × Adverts} {ev : DownloadEvent}
    (h : KeepsGoing s log ev) : ValidPeer ev := by
  cases ev with
  | ihave src p packet clk => exact h.1
  | data src p packet clk => exact h.1
  | _ => trivial

theorem busy_ihave {src : Addr} (hI : Wanted d g → d.Busy) (hslots : d.slots ≠ [])
    (hd : d.peers.Nodup) (hok : KeepsGoing (d, g) log (.ihave src p packet clk))
    (hs : (downloadMachine env).step (.ihave src p packet clk) d = .ok (d', l))
    (hw : Wanted d' (advertise g d (.ihave src p packet clk) l d')) : d'.Busy := by
  obtain ⟨hp, hok⟩ := hok
  obtain ⟨hcurrent, hslots'⟩ := updateConnections_currentRequest (p := p) (d := d) packet
  have hout := inboundIhave_outcome hs
  split_ifs at hout with hsome
  · unfold Downloads.assigned at hout
    split at hout
    · rename_i hpick
      have hrequest : d'.currentRequest = d.currentRequest := by
        rw [hout, markPeerState_currentRequest, hcurrent]
      have hbusy : d'.Busy ↔ d.Busy := busy_congr fun q => by
        rw [hout, markPeerState_streams, streams_congr hslots']
      rw [hbusy]
      obtain ⟨q, hash, hadvert, hoffer, hun⟩ := hw
      rw [unstarted_congr (progress_congr hrequest)] at hun
      rcases (offers_step hd hs).mp hoffer with ⟨rfl, hlisted⟩ | ⟨hne, hoffer⟩
      · refine hok.resolve_right fun hcounted => ?_
        obtain ⟨k, hleft, hcount⟩ := hcounted hash hlisted hun
        exact pickEntry_none_iff.mp hpick k hcount hleft
      · rcases advertise_subset hadvert with ⟨hold, -⟩ | ⟨_, _, _, he, -⟩
        · exact hI ⟨q, hash, hold, hoffer, hun⟩
        · cases he
          exact absurd rfl hne
    · rw [hout]
      exact busy_started hp (by rwa [hslots'])
  · obtain ⟨_, _, _, _, hun⟩ := hw
    refine absurd hun (unstarted_none ?_)
    rw [hout, hcurrent]
    simpa using hsome

/-- A packet that completes its chunk while the sender has nothing more to pick, and another peer has, was
not for the last active slot. -/
theorem SurvivesEnd.ends {now : Time} (hok : SurvivesEnd d g p packet) (hinv : DownloadInv d log)
    (hcompletes : Completes env p packet now d d₁) (hpick : pickANewChunk p d₁ = none)
    (hun : d₁.Unstarted hash) (hadvert : (q, hash) ∈ g) (hoffer : d.Offers q hash) : d.BusyBesides p := by
  obtain ⟨index, slot, name, request, entry, chunk, chunk', data, htarget, hfilled, -, hunstarted⟩ :=
    hcompletes.filled
  have hreceiving := hfilled.receiving (hinv.buffered request entry chunk htarget.current htarget.get)
  have hunstarted := hunstarted (by rw [hreceiving]; decide)
  obtain ⟨-, -, hstate, hadd⟩ := saveDataPacket_ok hfilled.save
  have hfull := (hadd (hstate ▸ hfilled.state)).symm.trans hfilled.full
  -- what the sender lists is not unfinished, or it would have been picked
  have hsender : ∀ k, d.Offers p k → ¬ d₁.Unstarted k := fun k hk hun => by
    refine pickEntry_none_iff.mp hpick k ?_ hun
    rwa [hcompletes.streams.1]
  rcases hok index slot name request entry chunk htarget hfull with hbesides | ⟨k, hk, hleft⟩ | hlists
  · exact hbesides
  · exact absurd ((hunstarted k).mpr (Or.inl hleft)) (hsender k hk)
  · have hcandidate := ((hunstarted hash).mp hun).imp_right And.left
    exact absurd hun (hsender hash (hlists q hash hadvert hoffer hcandidate))

theorem busy_data {src : Addr} (hI : Wanted d g → d.Busy) (hinv : DownloadInv d logged) (hd : d.peers.Nodup)
    (hok : KeepsGoing (d, g) log (.data src p packet clk))
    (hs : (downloadMachine env).step (.data src p packet clk) d = .ok (d', l))
    (hw : Wanted d' (advertise g d (.data src p packet clk) l d')) : d'.Busy := by
  obtain ⟨hp, hok⟩ := hok
  have hadverts : ∀ a ∈ advertise g d (.data src p packet clk) l d', a ∈ g :=
    advertise_old fun _ _ _ _ => nofun
  have hoffers : ∀ q hash, d'.Offers q hash → d.Offers q hash :=
    fun q hash h => (offers_step hd hs).mp h
  rcases inboundData_outcome hs with hquiet | ⟨d₁, hcompletes, hout⟩
  · rw [busy_congr fun q => hquiet.streams]
    exact hI (hw.mono hadverts hoffers fun hash => (unstarted_congr hquiet.progress).mp)
  · have hcount := hcompletes.streams.2.2
    unfold Downloads.assigned at hout
    split at hout
    · rename_i hpick
      have hbusy : d'.Busy ↔ d₁.Busy := busy_congr fun q => by rw [hout, markPeerState_streams]
      have hrequest : d'.currentRequest = d₁.currentRequest := by
        rw [hout, markPeerState_currentRequest]
      obtain ⟨q, hash, hadvert, hoffer, hun⟩ := hw
      rw [unstarted_congr (progress_congr hrequest)] at hun
      have hoffer := hoffers q hash hoffer
      have hbesides := hok.ends hinv hcompletes hpick hun (hadverts _ hadvert) hoffer
      rw [hbusy]
      exact hbesides.close hp hcount
    · rw [hout]
      refine busy_started hp fun hempty => ?_
      have hfree := hcount idNull
      rw [if_neg hp, if_pos rfl, Downloads.streams, hempty] at hfree
      exact absurd hfree (by simp)

theorem busy_denied (hI : Wanted d g → d.Busy)
    (hok : KeepsGoing (d, g) log (.denied p))
    (hw : Wanted (abortDownload p d) (advertise g d (.denied p) l (abortDownload p d))) :
    (abortDownload p d).Busy := by
  obtain ⟨hconnections, hrequest⟩ := abortDownload_frame p d
  have hwanted : Wanted d g := by
    refine hw.mono ?_ (fun q hash => (offers_congr hconnections).mp)
      fun hash => (unstarted_congr (progress_congr hrequest)).mp
    exact advertise_old fun _ _ _ _ => nofun
  rcases Nat.eq_zero_or_pos (d.streams p) with hzero | hpos
  · rw [abortDownload_none (streams_zero.mp hzero)]
    exact hI hwanted
  · have hcount := fun q => abortDownload_streams (q := q) hpos
    by_cases hp : p = idNull
    · subst hp
      rw [busy_congr fun q => Nat.add_right_cancel (hcount q)]
      exact hI hwanted
    · exact (hok hp hpos).close hp hcount

/-- `download_peer_crash` closes the last stream only if nothing is left to start or the pick that
follows finds something. -/
theorem Crash.busy {now : Time} {rto : Int} {crashed : Bool} (hc : Crash now rto d crashed d₁)
    (hI : Wanted d g → d.Busy) (hinv : HandedInv d log) (hd : d.peers.Nodup)
    (hok : SurvivesTimeout now rto d) (hw : Wanted d₁ g) :
    d₁.Busy ∨ (crashed = true ∧ pickAChunkAfterCrash d₁ ≠ none) := by
  have hoffers : ∀ q hash, d₁.Offers q hash → d.Offers q hash ∧ q ∈ d₁.peers :=
    fun q hash => (hc.offers hd).mp
  cases hc with
  | calm _ => exact Or.inl (hI hw)
  | @early q hash _ hclean hreturn =>
    obtain ⟨hq, hpos, rfl⟩ := cleanDownloadTimeout_eq hclean
    obtain ⟨idle, hfind, rfl, hhash⟩ := cleanDownloadTimeout_find hclean
    have hcount := fun q => abortDownload_streams (q := q) hpos
    rcases hok idle hash hfind hhash with hbesides | ⟨hsign, hpeer, -⟩
    · exact Or.inl (hbesides.close hq hcount)
    · rcases hreturn with hneg | hempty | hrequest
      · omega
      · rw [Downloads.peers, hempty] at hpeer
        cases hpeer
      · obtain ⟨_, _, _, _, hun⟩ := hw
        exact absurd hun (unstarted_none ((abortDownload_frame _ d).2.trans hrequest))
  | @removed q hash _ hclean hsign =>
    obtain ⟨hq, hpos, rfl⟩ := cleanDownloadTimeout_eq hclean
    obtain ⟨idle, hfind, rfl, hhash⟩ := cleanDownloadTimeout_find hclean
    have hmem : ∀ c, c ∈ d.connections.eraseP (fun c => decide (c.peerId = idle.downloadId)) ↔
        c ∈ d.connections ∧ c.peerId ≠ idle.downloadId := fun c => Table.mem_eraseP_key hd
    have hunstarted := fun k => unstarted_timeout (q := idle.downloadId) (k := k) hinv hfind hhash
      (d.connections.eraseP fun c => decide (c.peerId = idle.downloadId))
    rcases hok idle hash hfind hhash with hbesides | ⟨-, hpeer, htake⟩
    · refine Or.inl ?_
      rw [busy_congr fun q => streams_removed _]
      exact hbesides.close hq fun q => abortDownload_streams (q := q) hpos
    · obtain ⟨r, k, -, hoffer, hun⟩ := hw
      obtain ⟨hoffer, hr⟩ := hoffers r k hoffer
      obtain ⟨c, hc, rfl⟩ := mem_peers.mp hr
      obtain ⟨c', hc', hover⟩ := htake c.peerId k ((hmem c).mp hc).2 hoffer ((hunstarted k).mp hun)
      obtain ⟨hne, hidle, hpick⟩ := (takesOver_iff hd rfl hunstarted hc').mp hover
      obtain ⟨c₀, hc₀, hid⟩ := mem_peers.mp hpeer
      refine Or.inr ⟨List.any_eq_true.mpr ⟨c₀, hc₀, decide_eq_true hid⟩, fun hnone => hpick ?_⟩
      have hskipped := List.findSome?_eq_none_iff.mp hnone c' ((hmem c').mpr ⟨hc', hne⟩)
      rwa [if_pos hidle, Option.map_eq_none_iff] at hskipped

theorem busy_crash {rto : Int} (hI : Wanted d g → d.Busy) (hinv : HandedInv d logged) (hd : d.peers.Nodup)
    (hpeers : PeersValid d.connections) (hok : KeepsGoing (d, g) log (.crash clk rto))
    (hs : (downloadMachine env).step (.crash clk rto) d = .ok (d', l))
    (hw : Wanted d' (advertise g d (.crash clk rto) l d')) : d'.Busy := by
  have hadverts : ∀ a ∈ advertise g d (.crash clk rto) l d', a ∈ g :=
    advertise_old fun _ _ _ _ => nofun
  obtain ⟨crashed, d₁, hcrash, hd'⟩ := downloadPeerCrashWrapper_outcome hs
  have hout := downloadPeerCrash_outcome hcrash
  split at hd'
  · rename_i q entry chunk hpick
    obtain ⟨⟨c, hc, hid⟩, -⟩ := pickAChunkAfterCrash_some hpick
    rw [hd']
    refine busy_started (hid ▸ hpeers c (hout.connections_subset c hc)) fun hempty => ?_
    exact absurd (hout.free rfl) (by rw [Downloads.streams, hempty]; decide)
  · rename_i hnopick
    rw [hd'] at hw hadverts ⊢
    refine (hout.busy hI hinv hd hok (hw.mono hadverts (fun _ _ => id) fun _ => id)).resolve_right ?_
    rintro ⟨rfl, hpick⟩
    obtain ⟨⟨q, entry, chunk⟩, hsome⟩ := Option.ne_none_iff_exists'.mp hpick
    exact hnopick q entry chunk rfl hsome

theorem busy_step {ev : DownloadEvent} (hI : Wanted d g → d.Busy) (hslots : d.slots ≠ [])
    (hinv : HandedInv d logged) (hnil : d.currentRequest = none → g = []) (hd : d.peers.Nodup)
    (hpeers : PeersValid d.connections) (hok : KeepsGoing (d, g) log ev)
    (hs : (downloadMachine env).step ev d = .ok (d', l))
    (hw : Wanted d' (advertise g d ev l d')) : d'.Busy := by
  cases ev with
  | ihave src p packet clk => exact busy_ihave hI hslots hd hok hs hw
  | data src p packet clk => exact busy_data hI hinv.inv hd hok hs hw
  | denied p =>
    obtain ⟨rfl, -⟩ := Prod.mk.inj (Except.ok.inj hs)
    exact busy_denied hI hok hw
  | crash clk rto => exact busy_crash hI hinv hd hpeers hok hs hw
  | whohas src packet =>
    obtain rfl := inboundWhohas_fst hs
    refine hI (hw.mono ?_ (fun _ _ => id) fun _ => id)
    exact advertise_old fun _ _ _ _ => nofun
  | finish =>
    obtain ⟨rfl, -⟩ := Prod.mk.inj (Except.ok.inj hs)
    obtain ⟨hslots, hconnections, hrequest⟩ := finishRequest_frame d
    rw [busy_congr fun q => streams_congr hslots]
    refine hI (hw.mono ?_ (fun q k => (offers_congr hconnections).mp) fun k hun => ?_)
    · exact advertise_old fun _ _ _ _ => nofun
    · rcases hrequest with hsame | hnone
      · exact (unstarted_congr (progress_congr hsame)).mp hun
      · exact absurd hun (unstarted_none hnone)
  | userGet outf parsed =>
    obtain ⟨hslots, hconnections⟩ := userGet_frame hs
    rw [busy_congr fun q => streams_congr hslots]
    have hadverts : ∀ a ∈ advertise g d (.userGet outf parsed) l d', a ∈ g :=
      advertise_old fun _ _ _ _ => nofun
    rcases userGet_cases hs with ⟨rfl, -⟩ | ⟨lines, sent, hnone, -⟩
    · exact hI (hw.mono hadverts (fun _ _ => id) fun _ => id)
    · -- a new request starts without adverts
      obtain ⟨p, hash, hadvert, -⟩ := hw
      have hold := hadverts _ hadvert
      rw [hnil hnone] at hold
      cases hold

/-- In a run whose steps meet the condition something is active whenever a connected peer advertised
an unfinished entry of the current request. -/
theorem never_stalled {max : Nat} {has : List Chunk} {files : String → Memory}
    {s : Downloads × Adverts} (hmax : 1 ≤ max)
    (h : (advertMachine env).Reach (FreshAdverts max has files) KeepsGoing s log) :
    ¬ Stalled s := by
  have hI : Wanted s.1 s.2 → s.1.Busy := by
    refine h.invariant (I := fun s _ => Wanted s.1 s.2 → s.1.Busy) (fun s hs hw => ?_)
      fun s log ev s' l hr hI hok hs hw => ?_
    · obtain ⟨p, hash, hadvert, -⟩ := hw
      rw [show s = _ from hs] at hadvert
      cases hadvert
    · obtain ⟨hs, hhistory⟩ := Machine.observe_step.mp hs
      have hreach : (downloadMachine env).Reach (· = initDownloads max has files) ValidPeers s.1 log :=
        hr.forget (fun _ => FreshAdverts.fst) fun _ _ _ => validPeer_of_keepsGoing
      rw [hhistory] at hw
      refine busy_step hI (fun hempty => ?_) (handedInv_reach hreach) (adverts_nil hr) (advert_peers_nodup hr)
        (peersValid_reach (fun _ _ _ => id) hreach) hok hs hw
      have hlength := slots_length_reach hreach
      rw [hempty, List.length_nil] at hlength
      omega
  exact fun hstalled => hstalled.2 (hI hstalled.1)

/-- Peer 1 offers two chunks: with one slot the first is under way while the second is still wanted. -/
theorem never_stalled_one : ∃ s : Downloads × Adverts, Wanted s.1 s.2 ∧ ¬ Stalled s := by
  have hstart : (advertMachine sampleEnv).Reach (FreshAdverts 1 [] fun _ _ => 0)
    KeepsGoing (initDownloads 1 [] fun _ _ => 0, []) [] := .start rfl
  have hget := hstart.step (e := DownloadEvent.userGet "out"
    (some [(0, sampleHash 0), (1, sampleHash 1)])) trivial rfl
  have hcounted : ∀ k ∈ updateChunks (samplePacket (.ihave [sampleHash 0, sampleHash 1])),
      packetContainChunk (samplePacket (.ihave [sampleHash 0, sampleHash 1])) k = true := by decide
  have hone := hget.step (e := DownloadEvent.ihave sampleSrc 1
    (samplePacket (.ihave [sampleHash 0, sampleHash 1])) fun _ => 0)
    ⟨Int.one_ne_zero, Or.inr fun k hk hun => ⟨k, hun, hcounted k hk⟩⟩ rfl
  refine ⟨_, ⟨1, sampleHash 1, ?_, ?_, ?_⟩, never_stalled (Nat.le_refl 1) hone⟩
  · decide
  · decide
  · exact ⟨_, rfl, by decide⟩

/-- Peer 1 offers both chunks and denies the first: the second is left with nothing active. -/
theorem denied_stalls : ∃ (s : Downloads × Adverts) (log : DownloadLog),
    (advertMachine sampleEnv).Reach (FreshAdverts 1 [] fun _ _ => 0) Machine.Any s log ∧
      Stalled s := by
  have hstart : (advertMachine sampleEnv).Reach (FreshAdverts 1 [] fun _ _ => 0) Machine.Any
    (initDownloads 1 [] fun _ _ => 0, []) [] := .start rfl
  have hreach := hstart.runAny
    [.userGet "out" (some [(0, sampleHash 0), (1, sampleHash 1)]),
      .ihave sampleSrc 1 (samplePacket (.ihave [sampleHash 0, sampleHash 1])) fun _ => 0,
      .denied 1] rfl
  refine ⟨_, _, hreach, ⟨1, sampleHash 1, ?_, ?_, ?_⟩, ?_⟩
  · decide
  · decide
  · exact ⟨_, rfl, by decide⟩
  · decide

end Bittorrent
