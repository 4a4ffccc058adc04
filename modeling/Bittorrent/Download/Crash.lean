import Bittorrent.Download.Connections

/-!
# What a crash changes

`download_peer_crash` frees a slot, then resets a chunk by the hash and unlinks a connection by the
peer id that it copied out of the slot before. With distinct peers and hashes it touches one row of
each of the three tables, and the others keep their places.

The source loops over each table by its key, and under `CrashTables` a loop finds exactly one row. So the
proof is three lookups in `Table`: the first slot that timed out (`FirstTimedOut.find`), the chunk with its
hash (`resetChunk_eq`) and the connection of its peer; each loop then changes that row and no other.
The comparison with the clock is the source's own, an `int` product that is sign-extended; `timedOut_iff`
says when it is the comparison one expects.
-/

namespace Bittorrent

variable {d : Downloads} {request : Request} {slot : DownloadSlot} {hash : Hash} {now : Time}
  {rto : Int} {i : Nat}

/-- No two active slots, connections or chunks share a key, and the peer of every active slot is
connected. -/
structure CrashTables (d : Downloads) (request : Request) : Prop where
  current : d.currentRequest = some request
  hashes : (request.chunks.map (·.hash)).Nodup
  peers : d.peers.Nodup
  distinct : Table.Distinct (·.downloadId) idNull d.slots
  positive : ∀ slot ∈ d.slots, slot.downloadId ≠ idNull → 0 < slot.downloadId
  connected : ∀ slot ∈ d.slots, slot.downloadId ≠ idNull → slot.downloadId ∈ d.peers

/-- The chunk with the hash is unfinished again. -/
def Request.resetHash (hash : Hash) (request : Request) : Request :=
  { request with
    chunks := request.chunks.map fun c => if c.hash = hash then c.reset .notStarted else c }

theorem resetChunk_eq (hcurrent : d.currentRequest = some request)
    (hhashes : (request.chunks.map (·.hash)).Nodup) :
    resetChunk hash d = { d with currentRequest := some (request.resetHash hash) } := by
  unfold resetChunk
  simp only [hcurrent]
  split
  · rename_i hnone
    rw [Request.resetHash, Table.map_lookup_none hnone, ← hcurrent]
  · rename_i entry chunk hfound
    have hset := Table.set_lookup hhashes hfound fun c => c.reset .notStarted
    rw [Downloads.writeChunk, hcurrent, Option.map_some, Request.resetHash, ← hset]
    rfl

theorem timedOut_iff (h0 : 0 ≤ abortCoeff * rto) (h1 : abortCoeff * rto < 2 ^ 31) (slot : DownloadSlot) :
    slot.timedOut now rto = true ↔
      slot.downloadId ≠ idNull ∧ abortCoeff * rto < (now - slot.downloadLastTime).toNat := by
  rw [DownloadSlot.timedOut, decide_eq_true_eq, abortLimit, toInt32_eq h0 h1, expired_iff h0 h1]

/-- Slot `i` is the first whose idle time exceeds the timeout. -/
structure FirstTimedOut (now : Time) (rto : Int) (d : Downloads) (i : Nat) (slot : DownloadSlot) :
    Prop where
  get : d.slots[i]? = some slot
  timedOut : slot.timedOut now rto = true
  first : ∀ j s, j < i → d.slots[j]? = some s → s.timedOut now rto = false

theorem FirstTimedOut.find (h : FirstTimedOut now rto d i slot) :
    d.slots.find? (DownloadSlot.timedOut now rto) = some slot := by
  obtain ⟨hi, hget⟩ := List.getElem?_eq_some_iff.mp h.get
  refine List.find?_eq_some_iff_getElem.mpr ⟨h.timedOut, i, hi, hget, fun j hj => ?_⟩
  rw [h.first j _ hj (List.getElem?_eq_getElem (Nat.lt_trans hj hi)), Bool.not_false]

theorem FirstTimedOut.active (h : FirstTimedOut now rto d i slot) : slot.downloadId ≠ idNull := by
  have htimed := h.timedOut
  rw [DownloadSlot.timedOut, decide_eq_true_eq] at htimed
  exact htimed.1

/-- The state without the stream in slot `i` of the chunk with the hash. -/
def Downloads.crashed (i : Nat) (slot : DownloadSlot) (hash : Hash) (request : Request)
    (d : Downloads) : Downloads :=
  { d with
    slots := d.slots.set i slot.abort
    currentRequest := some (request.resetHash hash)
    connections := d.connections.filter fun c => decide (c.peerId ≠ slot.downloadId) }

/-- One call of `download_peer_crash` frees the first slot that timed out, resets its chunk, unlinks
its peer and changes nothing else; when no slot timed out it changes nothing. A slot has timed out when it
has been idle for more than `ABORT_COEFF * RTO`, as long as that is a non-negative `int`. -/
theorem crash_frame (h : CrashTables d request) (now : Time) (rto : Int) :
    (∀ i slot hash, FirstTimedOut now rto d i slot → slot.downloadChunk = some hash →
      downloadPeerCrash now rto d = .ok (true, d.crashed i slot hash request)) ∧
    ((∀ s ∈ d.slots, s.timedOut now rto = false) → downloadPeerCrash now rto d = .ok (false, d)) ∧
    (0 ≤ abortCoeff * rto → abortCoeff * rto < 2 ^ 31 → ∀ s ∈ d.slots, s.timedOut now rto = true ↔
      s.downloadId ≠ idNull ∧ abortCoeff * rto < (now - s.downloadLastTime).toNat) := by
  refine ⟨fun i slot hash hfirst hhash => ?_, fun hcalm => ?_, fun h0 h1 s _ => timedOut_iff h0 h1 s⟩
  · have hmem := List.mem_of_getElem? hfirst.get
    have hpos := h.positive slot hmem hfirst.active
    obtain ⟨c, hc, hid⟩ := mem_peers.mp (h.connected slot hmem hfirst.active)
    have hany : (d.connections.any fun c => decide (c.peerId = slot.downloadId)) = true :=
      List.any_eq_true.mpr ⟨c, hc, decide_eq_true hid⟩
    have hreturn : ¬ (slot.downloadId ≤ 0 ∨ (d.write i slot.abort).connections.isEmpty ∨
        (d.write i slot.abort).currentRequest.isNone) := by
      have hconnections : d.connections ≠ [] := List.ne_nil_of_mem hc
      simp [Downloads.write, h.current, hconnections, hpos]
    have hcurrent : (d.write i slot.abort).currentRequest = some request := h.current
    unfold downloadPeerCrash
    rw [cleanDownloadTimeout_eq_abort h.distinct hfirst.get hfirst.find hhash]
    simp only
    rw [if_neg hreturn, resetChunk_eq hcurrent h.hashes]
    have hunlink : d.connections.eraseP (fun c => decide (c.peerId = slot.downloadId)) =
        d.connections.filter fun c => decide (c.peerId ≠ slot.downloadId) := Table.eraseP_key h.peers
    simp only [Downloads.write, Downloads.crashed, hany, hunlink]
  · have hnone : d.slots.find? (DownloadSlot.timedOut now rto) = none :=
      List.find?_eq_none.mpr fun s hs => by simp [hcalm s hs]
    rw [downloadPeerCrash, cleanDownloadTimeout, hnone]

/-- Peers 2 and 3 each send a chunk. -/
def sampleStreams : Downloads where
  slots := [⟨2, some (sampleHash 0), [⟨0, 1⟩], 10000000⟩, ⟨idNull, none, [], 0⟩,
    ⟨3, some (sampleHash 1), [⟨0, 1⟩], 0⟩]
  currentRequest := some ⟨some "out", [requestEntry (0, sampleHash 0), requestEntry (1, sampleHash 1)]⟩
  connections := [⟨2, [], .working⟩, ⟨3, [], .working⟩, ⟨5, [], .notWorking⟩]
  hasChunkTable := []
  files := fun _ _ => 0

/-- Peer 3 crashes. -/
theorem crash_frame_third : ∃ d', downloadPeerCrash 10000000 1600000 sampleStreams = .ok (true, d') ∧
    d'.slots.map (·.downloadId) = [2, 0, 0] ∧ d'.peers = [2, 5] := by
  have htables : CrashTables sampleStreams
      ⟨some "out", [requestEntry (0, sampleHash 0), requestEntry (1, sampleHash 1)]⟩ := by
    have hkeys : (sampleStreams.slots.map (·.downloadId)).Nodup := by decide
    exact ⟨rfl, by decide, by decide, fun i j a b hi hj hab _ => Table.eq_of_nodup_key hkeys hi hj hab,
      by decide, by decide⟩
  have hfirst : FirstTimedOut 10000000 1600000 sampleStreams 2
      ⟨3, some (sampleHash 1), [⟨0, 1⟩], 0⟩ := by
    refine ⟨rfl, by decide, fun j s hj hs => ?_⟩
    obtain rfl | rfl : j = 0 ∨ j = 1 := by omega
    · cases hs
      decide
    · cases hs
      decide
  exact ⟨_, (crash_frame htables 10000000 1600000).1 2 _ _ hfirst rfl, rfl, rfl⟩

end Bittorrent
