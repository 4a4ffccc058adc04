import Bittorrent.Download.Outcomes

/-!
# The connections as a finite map

What the connection list is for is a map from peers to the hashes they offer and their state. Calls of
`update_connections`, `mark_peer_state` and `download_peer_crash`, in any order and with anything between
them that leaves the list alone, act on it as insertion, change and removal of one key
(`connections_map`), and `peer_contain_chunk` looks a hash up in the entry of its peer.

The list and the map are related by lookup, `connectionMap` being the first connection of each peer, so a
change of the row that a lookup finds is a change of the entry of that key (`connectionMap_of_find`,
`connectionMap_none`). Each call is one such change, stated once as an equation of maps; `act` is what the
map is for, without the list. `RefinesMap` adds that no peer is in the list twice: for the removal the map
needs it, since otherwise a second connection of the peer would come to light.
-/

namespace Bittorrent

variable {d d' : Downloads} {p q : Int} {packet : Incoming} {state : ConnectionState} {hash : Hash}
  {log l : List MapAction}

/-! ## The map -/

/-- The hashes each connected peer offers, and its state. -/
abbrev ConnectionMap := Int → Option (List Hash × ConnectionState)

def Connection.entry (c : Connection) : List Hash × ConnectionState := (c.chunks, c.state)

/-- The list as the functions that search it see it. -/
def Downloads.connectionMap (d : Downloads) : ConnectionMap :=
  Option.map Connection.entry ∘ Table.find (·.peerId) d.connections

inductive MapAction
  /-- The peer offers these hashes: a new peer is idle, a known one stays as it is. -/
  | update (peerId : Int) (hashes : List Hash)
  | mark (peerId : Int) (state : ConnectionState)
  | remove (peerId : Int)

namespace ConnectionMap

variable (m : ConnectionMap)

/-- The state of a peer, that of a new one if there is none. -/
def stateOf (p : Int) : ConnectionState := ((m p).map (·.2)).getD .notWorking

def act : MapAction → ConnectionMap
  | .update p hashes => Function.update m p (some (hashes, m.stateOf p))
  | .mark p state => Function.update m p ((m p).map fun entry => (entry.1, state))
  | .remove p => Function.update m p none

end ConnectionMap

/-! ## The calls -/

inductive ConnectionCall
  | update (peerId : Int) (packet : Incoming)
  | mark (peerId : Int) (state : ConnectionState)
  | crash (now : Time) (rto : Int)
  /-- Anything else that happens: the rest of the state is that of `d`. -/
  | other (d : Downloads)

/-- The functions that write the connection list, with the change of the map that each call is for. -/
def connectionMachine : Machine Downloads ConnectionCall MapAction Fault where
  step
    | .update p packet, d => .ok (updateConnections p packet d, [.update p (updateChunks packet)])
    | .mark p state, d => .ok (markPeerState p state d, [.mark p state])
    | .crash now rto, d =>
      match downloadPeerCrash now rto d with
      | .error f => .error f
      | .ok (false, d') => .ok (d', [])
      | .ok (true, d') =>
        let crashed := d.slots.find? (DownloadSlot.timedOut now rto)
        .ok (d', (crashed.map fun slot => .remove slot.downloadId).toList)
    | .other d', d => .ok ({ d' with connections := d.connections }, [])

/-! ## One call -/

theorem connectionMap_congr (h : d'.connections = d.connections) :
    d'.connectionMap = d.connectionMap := by
  rw [Downloads.connectionMap, h, Downloads.connectionMap]

theorem connectionMap_of_find (row : Option Connection)
    (h : Table.find (·.peerId) d'.connections =
      Function.update (Table.find (·.peerId) d.connections) p row) :
    d'.connectionMap = Function.update d.connectionMap p (row.map Connection.entry) := by
  rw [Downloads.connectionMap, h, Function.comp_update, Downloads.connectionMap]

theorem connectionMap_found {i : Nat} {c : Connection}
    (h : Table.lookup (·.peerId) p d.connections = some (i, c)) :
    d.connectionMap p = some c.entry := by
  rw [Downloads.connectionMap, Function.comp_apply, Table.find, h]
  rfl

theorem connectionMap_none (h : Table.lookup (·.peerId) p d.connections = none) :
    d.connectionMap p = none := by
  rw [Downloads.connectionMap, Function.comp_apply, Table.find_eq_none h]
  rfl

theorem connectionMap_update (p : Int) (packet : Incoming) (d : Downloads) :
    (updateConnections p packet d).connectionMap =
      d.connectionMap.act (.update p (updateChunks packet)) := by
  rw [ConnectionMap.act, ConnectionMap.stateOf]
  unfold updateConnections
  split
  · rename_i i c hfound
    have hkey : c.peerId = p := Table.lookup_key hfound
    rw [connectionMap_found hfound]
    exact connectionMap_of_find (some { c with chunks := updateChunks packet })
      (Table.find_set hfound hkey)
  · rename_i hnone
    rw [connectionMap_none hnone]
    exact connectionMap_of_find (some ⟨p, updateChunks packet, .notWorking⟩) (Table.find_cons ..)

theorem connectionMap_mark (p : Int) (state : ConnectionState) (d : Downloads) :
    (markPeerState p state d).connectionMap = d.connectionMap.act (.mark p state) := by
  rw [ConnectionMap.act]
  unfold markPeerState
  split
  · rename_i i c hfound
    have hkey : c.peerId = p := Table.lookup_key hfound
    rw [connectionMap_found hfound]
    exact connectionMap_of_find (some { c with state }) (Table.find_set hfound hkey)
  · rename_i hnone
    have habsent := connectionMap_none hnone
    rw [habsent, Option.map_none, ← habsent, Function.update_eq_self]

/-- `download_peer_crash` returns 1 when it has removed the entry of the first peer that timed out, and
otherwise leaves the map. -/
theorem connectionMap_crash {now : Time} {rto : Int} {crashed : Bool} (hd : d.peers.Nodup)
    (h : downloadPeerCrash now rto d = .ok (crashed, d')) :
    (crashed = false ∧ d'.connectionMap = d.connectionMap) ∨
    (crashed = true ∧ ∃ slot, d.slots.find? (DownloadSlot.timedOut now rto) = some slot ∧
      d.connectionMap slot.downloadId ≠ none ∧
      d'.connectionMap = d.connectionMap.act (.remove slot.downloadId)) := by
  cases downloadPeerCrash_outcome h with
  | calm _ => exact Or.inl ⟨rfl, rfl⟩
  | early hclean _ =>
    obtain ⟨-, -, rfl⟩ := cleanDownloadTimeout_eq hclean
    exact Or.inl ⟨rfl, connectionMap_congr (abortDownload_frame _ d).1⟩
  | @removed q hash d₁ hclean _ =>
    obtain ⟨slot, hfind, rfl, -⟩ := cleanDownloadTimeout_find hclean
    cases hany : d.connections.any fun c => decide (c.peerId = slot.downloadId) with
    | false =>
      refine Or.inl ⟨rfl, connectionMap_congr (List.eraseP_of_forall_not fun c hc hid => ?_)⟩
      rw [List.any_eq_false] at hany
      exact hany c hc hid
    | true =>
      obtain ⟨c, hc, hid⟩ := List.any_eq_true.mp hany
      refine Or.inr ⟨rfl, slot, hfind, ?_, connectionMap_of_find none (Table.find_eraseP hd)⟩
      have hrow : Table.find (·.peerId) d.connections slot.downloadId = some c :=
        (Table.find_eq_some hd).mpr ⟨hc, of_decide_eq_true hid⟩
      rw [Downloads.connectionMap, Function.comp_apply, hrow]
      exact Option.some_ne_none _

theorem peerContainChunk_map (hd : d.peers.Nodup) :
    peerContainChunk d.connections p hash = true ↔
      ∃ hashes state, d.connectionMap p = some (hashes, state) ∧ hash ∈ hashes := by
  rw [peerContainChunk_iff]
  constructor
  · rintro ⟨c, hc, hid, hh⟩
    have hrow : Table.find (·.peerId) d.connections p = some c :=
      (Table.find_eq_some hd).mpr ⟨hc, hid⟩
    refine ⟨c.chunks, c.state, ?_, hh⟩
    rw [Downloads.connectionMap, Function.comp_apply, hrow]
    rfl
  · rintro ⟨hashes, state, hentry, hh⟩
    obtain ⟨c, hrow, hc⟩ := Option.map_eq_some_iff.mp hentry
    obtain ⟨rfl, -⟩ := Prod.mk.inj hc
    obtain ⟨hmem, hid⟩ := (Table.find_eq_some hd).mp hrow
    exact ⟨c, hmem, hid, hh⟩

/-! ## Many calls -/

/-- The list has no peer twice, and is the map that the calls so far make. -/
structure RefinesMap (d : Downloads) (log : List MapAction) : Prop where
  nodup : d.peers.Nodup
  map : d.connectionMap = log.foldl ConnectionMap.act fun _ => none

theorem RefinesMap.step {call : ConnectionCall} (h : RefinesMap d log)
    (hs : connectionMachine.step call d = .ok (d', l)) : RefinesMap d' (log ++ l) := by
  cases call with
  | update p packet =>
    cases hs
    refine ⟨nodup_updateConnections h.nodup, ?_⟩
    rw [connectionMap_update, h.map, List.foldl_append]
    rfl
  | mark p state =>
    cases hs
    refine ⟨?_, ?_⟩
    · rw [peers_markPeerState]
      exact h.nodup
    · rw [connectionMap_mark, h.map, List.foldl_append]
      rfl
  | crash now rto =>
    simp only [connectionMachine] at hs
    split at hs
    · cases hs
    · rename_i d₁ hcrash
      cases hs
      refine ⟨(downloadPeerCrash_outcome hcrash).peers_nodup h.nodup, ?_⟩
      rcases connectionMap_crash h.nodup hcrash with ⟨-, hmap⟩ | ⟨hfalse, -⟩
      · rw [hmap, h.map, List.append_nil]
      · cases hfalse
    · rename_i d₁ hcrash
      cases hs
      refine ⟨(downloadPeerCrash_outcome hcrash).peers_nodup h.nodup, ?_⟩
      rcases connectionMap_crash h.nodup hcrash with ⟨htrue, -⟩ | ⟨-, slot, hfind, -, hmap⟩
      · cases htrue
      · rw [hmap, h.map, hfind, List.foldl_append]
        rfl
  | other d₁ =>
    cases hs
    refine ⟨h.nodup, ?_⟩
    rw [List.append_nil, ← h.map]
    rfl

theorem RefinesMap.reach
    (h : connectionMachine.Reach (fun d => d.connections = []) Machine.Any d log) :
    RefinesMap d log := by
  refine h.invariant (fun d hempty => ⟨?_, ?_⟩) fun d log call d' l _ hd _ hs => hd.step hs
  · rw [Downloads.peers, hempty]
    exact List.nodup_nil
  · rw [Downloads.connectionMap, hempty]
    rfl

/-- After any calls from an empty list: peers are distinct and the list is the map the calls make; an update
of a peer is its only change, and keeps the peer's state; `download_peer_crash` removes the peer whose
stream it closed and no other, or nothing; and `peer_contain_chunk` looks the hash up in the peer's
entry. -/
theorem connections_map
    (h : connectionMachine.Reach (fun d => d.connections = []) Machine.Any d log) :
    d.peers.Nodup ∧
    d.connectionMap = log.foldl ConnectionMap.act (fun _ => none) ∧
    (∀ p packet q, (updateConnections p packet d).connectionMap q =
      if q = p then some (updateChunks packet, d.connectionMap.stateOf p) else d.connectionMap q) ∧
    (∀ now rto d', downloadPeerCrash now rto d = .ok (true, d') →
      ∃ slot, d.slots.find? (DownloadSlot.timedOut now rto) = some slot ∧
        d.connectionMap slot.downloadId ≠ none ∧
        ∀ q, d'.connectionMap q = if q = slot.downloadId then none else d.connectionMap q) ∧
    (∀ now rto d', downloadPeerCrash now rto d = .ok (false, d') →
      d'.connectionMap = d.connectionMap) ∧
    ∀ p hash, peerContainChunk d.connections p hash = true ↔
      ∃ hashes state, d.connectionMap p = some (hashes, state) ∧ hash ∈ hashes := by
  obtain ⟨hnodup, hmap⟩ := RefinesMap.reach h
  refine ⟨hnodup, hmap, fun p packet q => ?_, fun now rto d' hcrash => ?_, fun now rto d' hcrash => ?_,
    fun p hash => peerContainChunk_map hnodup⟩
  · rw [connectionMap_update]
    exact Function.update_apply ..
  · rcases connectionMap_crash hnodup hcrash with ⟨htrue, -⟩ | ⟨-, slot, hfind, hentry, hmap'⟩
    · cases htrue
    · refine ⟨slot, hfind, hentry, fun q => ?_⟩
      rw [hmap']
      exact Function.update_apply ..
  · rcases connectionMap_crash hnodup hcrash with ⟨-, hmap'⟩ | ⟨hfalse, -⟩
    · exact hmap'
    · cases hfalse

/-- Two peers offer a chunk each, and the stream of the first one times out. -/
def sampleCalls : List ConnectionCall :=
  [.update 1 (samplePacket (.ihave [sampleHash 1])), .mark 1 .working,
    .update 3 (samplePacket (.ihave [sampleHash 2])),
    .other { initDownloads 1 [] fun _ _ => 0 with
      slots := [⟨1, some (sampleHash 1), [⟨0, 1⟩], 0⟩], currentRequest := some ⟨none, []⟩ },
    .crash 5 1]

theorem connections_map_two : ∃ d log,
    connectionMachine.run sampleCalls (initDownloads 1 [] fun _ _ => 0) = .ok (d, log) ∧
    d.peers = [3] ∧ (peerContainChunk d.connections 3 (sampleHash 2) = true ↔
      ∃ hashes state, d.connectionMap 3 = some (hashes, state) ∧ sampleHash 2 ∈ hashes) := by
  obtain ⟨⟨d, log⟩, hrun, hpeers⟩ : ∃ r, connectionMachine.run sampleCalls
    (initDownloads 1 [] fun _ _ => 0) = .ok r ∧ r.1.peers = [3] := ⟨_, rfl, rfl⟩
  have hstart : connectionMachine.Reach (fun d => d.connections = []) Machine.Any
      (initDownloads 1 [] fun _ _ => 0) [] := .start rfl
  exact ⟨d, log, hrun, hpeers, (connections_map (hstart.runAny sampleCalls hrun)).2.2.2.2.2 3 (sampleHash 2)⟩

end Bittorrent
