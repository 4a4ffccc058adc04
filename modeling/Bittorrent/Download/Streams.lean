import Bittorrent.Download.Outcomes
import Bittorrent.Download.Picked

/-!
# One stream for each peer

Every function on a download stream looks for the first slot of its peer, while `start_download` and
`clean_download_timeout` work on a slot they found by position. They agree as long as no peer has two
slots (`StreamsTracked`), which nothing in `start_download` checks: an IHAVE and the pick after a
crash may start a second stream. Its record is then never set, and a timeout frees the wrong slot.

`StreamInv` is kept by each function of `keep_track.c` under one proviso, that `start_download` is not
called for a peer with a slot (`StreamInv.opened`), so `streamInv_rule` is a `SlotRule` and a step keeps it
when the streams it starts meet the proviso. For an IHAVE the condition says so itself. For the pick after a
crash it speaks of the state before the step, and the pick works on the state that the crash has left: there
the chunk that timed out is unfinished again, and the connections are those that were there, less at most
one (`unstarted_timeout`). `takesOver_iff` translates the one into the other, connection by connection,
`pickAChunkAfterCrash_first` says which of them is chosen, and `Crash.picked_free` puts the two together.
-/

namespace Bittorrent

variable {env : Env} {d d' d₁ : Downloads} {l log : DownloadLog} {p q : Int} {index entry : Nat}
  {slot slot' : DownloadSlot} {hash : Hash} {chunk : Chunk} {packet : Incoming} {clk : Clock}
  {now : Time} {rto : Int} {c : Connection}

/-! ## Records -/

/-- The records a stream can have: the root that stands for number 0, and what the packets since
have made of it. -/
inductive Tracked : List PacketRecord → Prop
  | root : Tracked [⟨0, 1⟩]
  | packet {records : List PacketRecord} (seq length : Nat) (h : Tracked records) :
      Tracked (advanceRecords seq length records)

/-- An active stream is tracked; a free slot has no record. -/
def Recorded (slot : DownloadSlot) : Prop :=
  if slot.downloadId = idNull then slot.lastAckedRecord = [] else Tracked slot.lastAckedRecord

theorem recorded_abort (slot : DownloadSlot) : Recorded slot.abort := by
  rw [Recorded, if_pos (show slot.abort.downloadId = idNull from rfl)]
  rfl

/-! ## The invariant -/

/-- No peer has two streams, and every stream is tracked. -/
structure StreamInv (d : Downloads) : Prop where
  distinct : Table.Distinct (·.downloadId) idNull d.slots
  recorded : Slots Recorded d

theorem StreamInv.congr (h : StreamInv d) (hslots : d'.slots = d.slots) : StreamInv d' :=
  ⟨hslots ▸ h.distinct, h.recorded.congr hslots⟩

theorem StreamInv.abort (h : StreamInv d) (p : Int) : StreamInv (abortDownload p d) := by
  cases hfound : getDownloadIndexById p d with
  | none =>
    rw [abortDownload_none hfound]
    exact h
  | some r =>
    obtain ⟨index, slot⟩ := r
    rw [abortDownload_eq hfound]
    have hget := getDownloadIndexById_get hfound
    exact ⟨h.distinct.set (Table.lookup_lt hfound) fun hne => absurd rfl hne,
      h.recorded.write hget (recorded_abort slot)⟩

theorem StreamInv.abort_none (h : StreamInv d) (hp : p ≠ idNull) :
    getDownloadIndexById p (abortDownload p d) = none := by
  cases hfound : getDownloadIndexById p d with
  | none => rw [abortDownload_none hfound, hfound]
  | some r =>
    obtain ⟨index, slot⟩ := r
    have hid := getDownloadIndexById_id hfound
    rw [abortDownload_eq hfound]
    refine Table.lookup_eq_none.mpr fun j s hj => ?_
    rcases Table.get_set_cases (Table.lookup_lt hfound) hj with ⟨-, rfl⟩ | ⟨hne, hj⟩
    · exact fun hnull => hp hnull.symm
    · intro hs
      have hactive : s.downloadId ≠ idNull := hs ▸ hp
      exact hne (h.distinct j index s slot hj (getDownloadIndexById_get hfound) (hs.trans hid.symm)
        hactive)

theorem StreamInv.track (h : StreamInv d) (hp : p ≠ idNull) (seq length : Nat) (now : Time) :
    StreamInv (trackDataPacket p seq length now d).2 := by
  cases hfound : getDownloadIndexById p d with
  | none =>
    rw [trackDataPacket_none hfound]
    exact h
  | some r =>
    obtain ⟨index, slot⟩ := r
    rw [trackDataPacket_eq hfound]
    have hget := getDownloadIndexById_get hfound
    have hactive : slot.downloadId ≠ idNull := (getDownloadIndexById_id hfound).symm ▸ hp
    have hrecords := h.recorded index slot hget
    rw [Recorded, if_neg hactive] at hrecords
    refine ⟨h.distinct.set_key hget rfl, h.recorded.write hget ?_⟩
    rw [Recorded, if_neg hactive]
    exact .packet seq length hrecords

theorem opened_fresh (hfree : getDownloadIndexById idNull d = some (index, slot))
    (hnone : getDownloadIndexById p d = none) : d.opened p hash clk = d.write index { slot with
      downloadId := p, downloadChunk := some hash
      lastAckedRecord := advanceRecords 0 1 slot.lastAckedRecord, downloadLastTime := clk 2 } := by
  have hfound : getDownloadIndexById p (d.write index (slot.opened p hash (clk 1))) =
      some (index, slot.opened p hash (clk 1)) := Table.lookup_set_new hnone (Table.lookup_lt hfree) rfl
  rw [opened_some hfree, trackDataPacket_eq hfound]
  simp [Downloads.write, DownloadSlot.opened, List.set_set]

theorem StreamInv.opened (h : StreamInv d) (hp : p ≠ idNull)
    (hone : d.streams idNull ≠ 0 → d.streams p = 0) (hash : Hash) (clk : Clock) :
    StreamInv (d.opened p hash clk) := by
  cases hfree : getDownloadIndexById idNull d with
  | none =>
    rw [opened_none (streams_zero.mpr hfree)]
    exact h
  | some r =>
    obtain ⟨index, slot⟩ := r
    have hnone := streams_zero.mp (hone (Nat.pos_iff_ne_zero.mp (streams_found hfree)))
    have hget := getDownloadIndexById_get hfree
    have hrecords := h.recorded index slot hget
    rw [Recorded, if_pos (getDownloadIndexById_id hfree)] at hrecords
    rw [opened_fresh hfree hnone, hrecords]
    refine ⟨h.distinct.set (Table.lookup_lt hfree) fun _ j s _ hj =>
      Table.lookup_eq_none.mp hnone j s hj, h.recorded.write hget ?_⟩
    rw [Recorded, if_neg (show p ≠ idNull from hp)]
    exact .root

theorem streamInv_rule : SlotRule StreamInv (· ≠ idNull)
    fun d p => d.streams idNull ≠ 0 → d.streams p = 0 where
  outside h hslots := h.congr hslots
  track h hp _ length now := h.track hp _ length now
  abort h p := h.abort p
  opened h hp hone hash clk := h.opened hp hone hash clk
  start_congr hslots hone hfree := by
    rw [streams_congr hslots] at hfree ⊢
    exact hone hfree
  -- the stream that ended was the only one of its peer
  reopened h hp _ := streams_zero.mpr (h.abort_none hp)

/-! ## The pick after a crash -/

/-- When a stream of `q` for the chunk with `hash` has timed out the pick can choose the connection: it is
not that to `q`, it is idle, and it lists an entry that is NOT_STARTED or the one that is reset. -/
def TakesOver (d : Downloads) (q : Int) (hash : Hash) (c : Connection) : Prop :=
  c.peerId ≠ q ∧ c.state = .notWorking ∧ ∃ k ∈ c.chunks, d.Unstarted k ∨ k = hash

theorem unstarted_timeout (hinv : HandedInv d log)
    (hfind : d.slots.find? (DownloadSlot.timedOut now rto) = some slot) (hnamed : slot.downloadChunk = some hash)
    (connections : List Connection) {k : Hash} :
    ({ resetChunk hash (abortDownload q d) with connections } : Downloads).Unstarted k ↔
      d.Unstarted k ∨ k = hash := by
  obtain ⟨i, hi⟩ := List.mem_iff_getElem?.mp (List.mem_of_find?_eq_some hfind)
  obtain ⟨request, entry, chunk, hrequest, hget, hchunk⟩ := hinv.requested hi hnamed
  have habort : (abortDownload q d).currentRequest = d.currentRequest := (abortDownload_frame q d).2
  have hreset := unstarted_resetChunk (d := abortDownload q d) (k := k) (habort.trans hrequest) hget hchunk
  rw [unstarted_congr (progress_congr habort)] at hreset
  exact hreset

theorem takesOver_iff (hd : d.peers.Nodup)
    (hconnections : d₁.connections = d.connections.eraseP fun c => decide (c.peerId = q))
    (hunstarted : ∀ k, d₁.Unstarted k ↔ d.Unstarted k ∨ k = hash) (hc : c ∈ d.connections) :
    TakesOver d q hash c ↔ c.peerId ≠ q ∧ c.state = .notWorking ∧ pickANewChunk c.peerId d₁ ≠ none := by
  have hmem : ∀ c', c' ∈ d₁.connections ↔ c' ∈ d.connections ∧ c'.peerId ≠ q := fun c' => by
    rw [hconnections]
    exact Table.mem_eraseP_key hd
  refine and_congr_right fun hne => and_congr_right fun _ => ?_
  constructor
  · rintro ⟨k, hk, hun⟩ hpick
    refine pickEntry_none_iff.mp hpick k ?_ ((hunstarted k).mpr hun)
    exact peerContainChunk_iff.mpr ⟨c, (hmem c).mpr ⟨hc, hne⟩, rfl, hk⟩
  · intro hpick
    by_contra hno
    refine hpick (pickEntry_none_iff.mpr fun k hoffered hun => hno ?_)
    obtain ⟨c', hc', hid, hk⟩ := peerContainChunk_iff.mp hoffered
    obtain rfl : c' = c := connection_unique hd ((hmem c').mp hc').1 hc hid
    exact ⟨k, hk, (hunstarted k).mp hun⟩

theorem pickAChunkAfterCrash_first (hd : d.peers.Nodup)
    (hconnections : d₁.connections = d.connections.eraseP fun c => decide (c.peerId = q))
    (hunstarted : ∀ k, d₁.Unstarted k ↔ d.Unstarted k ∨ k = hash)
    (h : pickAChunkAfterCrash d₁ = some (p, entry, chunk)) : ∃ before c after,
      d.connections = before ++ c :: after ∧ c.peerId = p ∧ TakesOver d q hash c ∧
        ∀ c' ∈ before, ¬ TakesOver d q hash c' := by
  unfold pickAChunkAfterCrash at h
  rw [hconnections, Table.eraseP_key hd] at h
  obtain ⟨left, c, right, hsplit, hsome, hnone⟩ := List.findSome?_eq_some_iff.mp h
  obtain ⟨before, rest, hwhole, hleft, hrest⟩ := List.filter_eq_append_iff.mp hsplit
  obtain ⟨skipped, after, hrest, hskip, hc, -⟩ := List.filter_eq_cons_iff.mp hrest
  have hall : d.connections = (before ++ skipped) ++ c :: after := by rw [hwhole, hrest, List.append_assoc]
  have hiff : ∀ c' ∈ d.connections, TakesOver d q hash c' ↔
      c'.peerId ≠ q ∧ c'.state = .notWorking ∧ pickANewChunk c'.peerId d₁ ≠ none :=
    fun c' hc' => takesOver_iff hd hconnections hunstarted hc'
  split_ifs at hsome with hstate
  obtain ⟨found, hpick, he⟩ := Option.map_eq_some_iff.mp hsome
  refine ⟨before ++ skipped, c, after, hall, congrArg Prod.fst he, ?_, fun c' hc' htake => ?_⟩
  · refine (hiff c (by rw [hall]; simp)).mpr ⟨of_decide_eq_true hc, hstate, ?_⟩
    rw [hpick]
    exact Option.some_ne_none _
  · obtain ⟨hne, hidle, hpick⟩ := (hiff c' (by rw [hall]; exact List.mem_append_left _ hc')).mp htake
    rcases List.mem_append.mp hc' with hc' | hc'
    · have hnone := hnone c' (hleft ▸ List.mem_filter.mpr ⟨hc', decide_eq_true hne⟩)
      rw [if_pos hidle, Option.map_eq_none_iff] at hnone
      exact hpick hnone
    · exact hskip c' hc' (decide_eq_true hne)

/-! ## Runs -/

/-- What a step must meet: no sender is `ID_NULL`, and a stream is started only to a peer that has
none, by an IHAVE that finds a chunk and a slot and by the pick after a crash. -/
def OneStreamEach (d : Downloads) (_ : DownloadLog) : DownloadEvent → Prop
  | .ihave _ p packet _ => p ≠ idNull ∧ (pickAChunk packet d ≠ none →
      getDownloadIndexById idNull d ≠ none → getDownloadIndexById p d = none)
  | .data _ p _ _ => p ≠ idNull
  | .crash clk rto => ∀ idle hash before c after,
      d.slots.find? (DownloadSlot.timedOut (clk 0) rto) = some idle → idle.downloadChunk = some hash →
      0 < idle.downloadId → idle.downloadId ∈ d.peers → d.connections = before ++ c :: after →
      TakesOver d idle.downloadId hash c → (∀ c' ∈ before, ¬ TakesOver d idle.downloadId hash c') →
        getDownloadIndexById c.peerId d = none
  | _ => True

theorem validPeer_of_oneStreamEach {ev : DownloadEvent} (h : OneStreamEach d log ev) :
    ValidPeer ev := by
  cases ev with
  | ihave src p packet clk => exact h.1
  | data src p packet clk => exact h
  | _ => trivial

theorem Crash.picked_free {crashed : Bool} (hc : Crash now rto d crashed d₁) (hcrashed : crashed = true)
    (hinv : HandedInv d log) (hd : d.peers.Nodup) (hpeers : PeersValid d.connections)
    (hok : ∀ idle hash before c after, d.slots.find? (DownloadSlot.timedOut now rto) = some idle →
      idle.downloadChunk = some hash → 0 < idle.downloadId → idle.downloadId ∈ d.peers →
      d.connections = before ++ c :: after → TakesOver d idle.downloadId hash c →
      (∀ c' ∈ before, ¬ TakesOver d idle.downloadId hash c') → getDownloadIndexById c.peerId d = none)
    (hpick : pickAChunkAfterCrash d₁ = some (p, entry, chunk)) : d₁.streams p = 0 := by
  cases hc with
  | calm _ => cases hcrashed
  | early _ _ => cases hcrashed
  | @removed q hash _ hclean hsign =>
    obtain ⟨hq, hpos, rfl⟩ := cleanDownloadTimeout_eq hclean
    obtain ⟨idle, hfind, rfl, hnamed⟩ := cleanDownloadTimeout_find hclean
    obtain ⟨c₀, hc₀, hid₀⟩ := List.any_eq_true.mp hcrashed
    obtain ⟨before, c, after, hall, rfl, htake, hfirst⟩ := pickAChunkAfterCrash_first hd rfl
      (fun k => unstarted_timeout hinv hfind hnamed _) hpick
    have hnone := hok idle hash before c after hfind hnamed hsign
      (mem_peers.mpr ⟨c₀, hc₀, of_decide_eq_true hid₀⟩) hall htake hfirst
    have hc : c ∈ d.connections := by
      rw [hall]
      simp
    have hcount := abortDownload_streams (q := c.peerId) hpos
    rw [if_neg (Ne.symm htake.1), if_neg (hpeers c hc).symm, Nat.add_zero, Nat.add_zero] at hcount
    rw [streams_removed, hcount]
    exact streams_zero.mpr hnone

theorem StreamInv.step {ev : DownloadEvent} (h : StreamInv d) (hinv : HandedInv d log) (hd : d.peers.Nodup)
    (hpeers : PeersValid d.connections) (hok : OneStreamEach d log ev)
    (hs : (downloadMachine env).step ev d = .ok (d', l)) : StreamInv d' := by
  refine streamInv_rule.step h ?_ hs
  cases ev with
  | ihave src p packet clk =>
    refine ⟨hok.1, fun hpick hfree => ?_⟩
    exact streams_zero.mpr (hok.2 hpick fun hnone => hfree (streams_zero.mpr hnone))
  | data src p packet clk => exact hok
  | crash clk rto =>
    intro d₁ q entry chunk hcrash hpick
    refine ⟨picked_valid hpeers hcrash hpick, fun _ => ?_⟩
    exact (downloadPeerCrash_outcome hcrash).picked_free rfl hinv hd hpeers hok hpick
  | _ => trivial

/-- Connections are made by IHAVE packets, so none is to `ID_NULL` if no sender is. -/
theorem peersValid_reach {max : Nat} {has : List Chunk} {files : String → Memory}
    {Ok : Downloads → DownloadLog → DownloadEvent → Prop}
    (hok : ∀ d log ev, Ok d log ev → ValidPeer ev)
    (h : (downloadMachine env).Reach (· = initDownloads max has files) Ok d log) :
    PeersValid d.connections := by
  refine run_invariant True False (I := fun d _ => PeersValid d.connections)
    (fun d hd c hc => ?_) (fun d log ev hev _ => hok d log ev hev) (fun _ _ _ _ _ hl => hl.elim)
    (fun d _ _ d' hI hm => peersValid_move hI hm) (fun d _ outf parsed l d' hI _ hs => ?_) h
  · rw [hd] at hc
    cases hc
  · rw [(userGet_frame hs).2]
    exact hI

/-- The download slots as every function on a stream takes them to be. -/
structure StreamsTracked (d : Downloads) : Prop where
  /-- No two active slots have the same peer. -/
  distinct : Table.Distinct (·.downloadId) idNull d.slots
  /-- The records of an active slot began at number 0. -/
  tracked : ∀ slot ∈ d.slots, slot.downloadId ≠ idNull → Tracked slot.lastAckedRecord
  /-- `clean_download_timeout` frees a slot that timed out and returns its peer and its hash, or
  there is none. -/
  timeout : ∀ now rto, (cleanDownloadTimeout now rto d = .ok none ∧
      ∀ slot ∈ d.slots, slot.timedOut now rto = false) ∨
    ∃ i slot hash, d.slots[i]? = some slot ∧ slot.timedOut now rto = true ∧
      slot.downloadChunk = some hash ∧
      cleanDownloadTimeout now rto d = .ok (some (slot.downloadId, hash, d.write i slot.abort))

theorem StreamInv.streamsTracked (h : StreamInv d) (hnamed : SlotsNamed d) : StreamsTracked d where
  distinct := h.distinct
  tracked slot hmem hactive := by
    obtain ⟨i, hi⟩ := List.mem_iff_getElem?.mp hmem
    have hrecords := h.recorded i slot hi
    rwa [Recorded, if_neg hactive] at hrecords
  timeout now rto := by
    cases hfind : d.slots.find? (DownloadSlot.timedOut now rto) with
    | none =>
      refine Or.inl ⟨?_, fun slot hmem => by simpa using List.find?_eq_none.mp hfind slot hmem⟩
      rw [cleanDownloadTimeout, hfind]
    | some slot =>
      obtain ⟨i, hi⟩ := List.mem_iff_getElem?.mp (List.mem_of_find?_eq_some hfind)
      have htimed := List.find?_some hfind
      have hactive : slot.downloadId ≠ idNull := by
        rw [DownloadSlot.timedOut, decide_eq_true_eq] at htimed
        exact htimed.1
      obtain ⟨hash, hhash⟩ := Option.ne_none_iff_exists'.mp (hnamed i slot hi hactive)
      exact Or.inr ⟨i, slot, hash, hi, htimed, hhash,
        cleanDownloadTimeout_eq_abort h.distinct hi hfind hhash⟩

/-- In a run in which no peer is given a second stream every function on a stream finds its slot. -/
theorem streams_tracked {max : Nat} {has : List Chunk} {files : String → Memory}
    (h : (downloadMachine env).Reach (· = initDownloads max has files) OneStreamEach d log) :
    StreamsTracked d := by
  have hinv : StreamInv d := by
    refine h.invariant (I := fun d _ => StreamInv d) (fun d hd => ?_)
      fun d log ev d' l hr hI hok hs => hI.step (handedInv_reach hr) (peers_nodup_reach hr) ?_ hok hs
    · subst hd
      have hfree : ∀ slot ∈ (initDownloads max has files).slots, slot = ⟨idNull, none, [], 0⟩ :=
        fun slot hmem => (List.mem_replicate.mp hmem).2
      refine ⟨fun i j a b hi _ _ hne => ?_, fun i slot hi => ?_⟩
      · rw [hfree a (List.mem_of_getElem? hi)] at hne
        exact absurd rfl hne
      · rw [hfree slot (List.mem_of_getElem? hi)]
        exact recorded_abort ⟨idNull, none, [], 0⟩
    · exact peersValid_reach (fun _ _ _ => validPeer_of_oneStreamEach) hr
  exact hinv.streamsTracked (downloadInv_reach h).named

/-- Peers 1 and 2 offer one chunk each. -/
theorem streams_tracked_two : ∃ d, d.streams 1 = 1 ∧ d.streams 2 = 1 ∧ StreamsTracked d := by
  have hstart : (downloadMachine sampleEnv).Reach (· = initDownloads 2 [] fun _ _ => 0) OneStreamEach
    (initDownloads 2 [] fun _ _ => 0) [] := .start rfl
  have hget := hstart.step (e := DownloadEvent.userGet "out"
    (some [(0, sampleHash 0), (1, sampleHash 1)])) trivial rfl
  have hone := hget.step (e := DownloadEvent.ihave sampleSrc 1
    (samplePacket (.ihave [sampleHash 0])) fun _ => 0) ⟨Int.one_ne_zero, fun _ _ => rfl⟩ rfl
  have htwo := hone.step (e := DownloadEvent.ihave sampleSrc 2
    (samplePacket (.ihave [sampleHash 1])) fun _ => 0)
    ⟨(by decide : (2 : Int) ≠ 0), fun _ _ => rfl⟩ rfl
  refine ⟨_, ?_, ?_, streams_tracked htwo⟩
  · rfl
  · rfl

/-- Two IHAVE packets of peer 1 start two streams. The record of the second is never set, and when it
times out the first is closed, although it just received a packet. -/
theorem second_stream_untracked : ∃ d log slot,
    (downloadMachine sampleEnv).Reach (· = initDownloads 2 [] fun _ _ => 0) ValidPeers d log ∧
    ¬ StreamsTracked d ∧
    d.slots[1]? = some slot ∧ slot.downloadId = 1 ∧ slot.lastAckedRecord = [] ∧
    slot.timedOut 10000000 1600000 = true ∧
    ∃ d', cleanDownloadTimeout 10000000 1600000 d = .ok (some (1, sampleHash 1, d')) ∧
      d'.slots[1]? = some slot := by
  have hreach := ValidPeers.run sampleEnv 2 [] (fun _ _ => 0)
    [.userGet "out" (some [(0, sampleHash 0), (1, sampleHash 1)]),
      .ihave sampleSrc 1 (samplePacket (.ihave [sampleHash 0])) fun _ => 0,
      .ihave sampleSrc 1 (samplePacket (.ihave [sampleHash 1])) fun _ => 0,
      .data sampleSrc 1 (samplePacket (.data 1 [7])) fun _ => 10000000]
    (by simp [ValidPeer, idNull]) rfl
  refine ⟨_, _, _, hreach, fun htracked => ?_, rfl, rfl, rfl, by decide, _, rfl, rfl⟩
  exact absurd (htracked.distinct 0 1 _ _ rfl rfl rfl Int.one_ne_zero) (by decide)

end Bittorrent
