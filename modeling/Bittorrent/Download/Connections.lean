import Bittorrent.Download.Moves

/-!
# Connections

No two connections are to the same peer, in every run (`peers_nodup`), so the loops of
`update_connections`, `mark_peer_state`, `peer_contain_chunk` and of the removal in
`download_peer_crash` all mean the same connection. What each of them leaves is said once here, as
membership.

The list is only ever searched from the front, for the first connection of a peer. When no peer occurs twice
the first one is the only one, so `mem_updateConnections` and `mem_markPeerState` can speak of membership
and leave positions out, and what a peer offers is what its one connection lists (`peerContainChunk_iff`).
-/

namespace Bittorrent

variable {env : Env} {d d' : Downloads} {l log : DownloadLog} {p q : Int} {packet : Incoming}
  {state : ConnectionState} {c : Connection} {hash : Hash} {entry : Nat} {chunk : Chunk}

/-- The peers of the connections. -/
def Downloads.peers (d : Downloads) : List Int := d.connections.map (·.peerId)

theorem mem_peers : p ∈ d.peers ↔ ∃ c ∈ d.connections, c.peerId = p := List.mem_map

theorem lookup_peer_none (h : Table.lookup (·.peerId) p d.connections = none) : p ∉ d.peers := by
  intro hmem
  obtain ⟨c, hc, hp⟩ := mem_peers.mp hmem
  obtain ⟨i, hi⟩ := List.mem_iff_getElem?.mp hc
  exact Table.lookup_eq_none.mp h i c hi hp

theorem connection_unique {c' : Connection} (hd : d.peers.Nodup) (hc : c ∈ d.connections)
    (hc' : c' ∈ d.connections) (h : c.peerId = c'.peerId) : c = c' := by
  obtain ⟨i, hi⟩ := List.mem_iff_getElem?.mp hc
  obtain ⟨j, hj⟩ := List.mem_iff_getElem?.mp hc'
  obtain rfl : i = j := Table.eq_of_nodup_key hd hi hj h
  exact Option.some.inj (hi.symm.trans hj)

theorem mem_connections_set {i : Nat} {c₀ : Connection} (c₁ : Connection) (hd : d.peers.Nodup)
    (hfound : Table.lookup (·.peerId) p d.connections = some (i, c₀)) (h : c₁.peerId = p) :
    c ∈ d.connections.set i c₁ ↔ c = c₁ ∨ (c ∈ d.connections ∧ c.peerId ≠ p) := by
  have hkey : c₀.peerId = p := Table.lookup_key hfound
  have hset := Table.mem_set_key (c := c) hd (Table.lookup_get hfound) (h.trans hkey.symm)
  rwa [hkey] at hset

/-! ## The effects -/

/-- The connections after an IHAVE: the sender's lists what the packet lists, and is new if there
was none. -/
theorem mem_updateConnections (hd : d.peers.Nodup) :
    c ∈ (updateConnections p packet d).connections ↔
      (c.peerId = p ∧ c.chunks = updateChunks packet ∧
        ((∃ c' ∈ d.connections, c'.peerId = p ∧ c.state = c'.state) ∨
          (p ∉ d.peers ∧ c.state = .notWorking))) ∨
      (c ∈ d.connections ∧ c.peerId ≠ p) := by
  unfold updateConnections
  split
  · rename_i i c₀ hfound
    have hkey : c₀.peerId = p := Table.lookup_key hfound
    have hmem : c₀ ∈ d.connections := List.mem_of_getElem? (Table.lookup_get hfound)
    have hp : p ∈ d.peers := mem_peers.mpr ⟨c₀, hmem, hkey⟩
    refine (mem_connections_set { c₀ with chunks := updateChunks packet } hd hfound hkey).trans
      (or_congr_left ⟨?_, ?_⟩)
    · rintro rfl
      exact ⟨hkey, rfl, Or.inl ⟨c₀, hmem, hkey, rfl⟩⟩
    · rintro ⟨hid, hchunks, ⟨c', hc', hid', hstate⟩ | ⟨hnew, -⟩⟩
      · obtain rfl := connection_unique hd hc' hmem (hid'.trans hkey.symm)
        obtain ⟨cid, cchunks, cstate⟩ := c
        simp only at hid hchunks hstate
        rw [hid, hchunks, hstate, hid']
      · exact absurd hp hnew
  · rename_i hnone
    have hnew := lookup_peer_none hnone
    rw [List.mem_cons]
    constructor
    · rintro (rfl | hc)
      · exact Or.inl ⟨rfl, rfl, Or.inr ⟨hnew, rfl⟩⟩
      · exact Or.inr ⟨hc, fun hid => hnew (mem_peers.mpr ⟨c, hc, hid⟩)⟩
    · rintro (⟨hid, hchunks, ⟨c', hc', hid', -⟩ | ⟨-, hstate⟩⟩ | ⟨hc, -⟩)
      · exact absurd (mem_peers.mpr ⟨c', hc', hid'⟩) hnew
      · obtain ⟨cid, cchunks, cstate⟩ := c
        simp only at hid hchunks hstate
        subst hid hchunks hstate
        exact Or.inl rfl
      · exact Or.inr hc

theorem mem_markPeerState (hd : d.peers.Nodup) :
    c ∈ (markPeerState p state d).connections ↔
      (∃ c' ∈ d.connections, c'.peerId = p ∧ c = { c' with state }) ∨
        (c ∈ d.connections ∧ c.peerId ≠ p) := by
  unfold markPeerState
  split
  · rename_i i c₀ hfound
    have hkey : c₀.peerId = p := Table.lookup_key hfound
    have hmem : c₀ ∈ d.connections := List.mem_of_getElem? (Table.lookup_get hfound)
    refine (mem_connections_set { c₀ with state } hd hfound hkey).trans (or_congr_left ⟨?_, ?_⟩)
    · rintro rfl
      exact ⟨c₀, hmem, hkey, rfl⟩
    · rintro ⟨c', hc', hid', rfl⟩
      obtain rfl := connection_unique hd hc' hmem (hid'.trans hkey.symm)
      rfl
  · rename_i hnone
    have hnew := lookup_peer_none hnone
    constructor
    · exact fun hc => Or.inr ⟨hc, fun hid => hnew (mem_peers.mpr ⟨c, hc, hid⟩)⟩
    · rintro (⟨c', hc', hid', -⟩ | ⟨hc, -⟩)
      · exact absurd (mem_peers.mpr ⟨c', hc', hid'⟩) hnew
      · exact hc

theorem markPeerState_slots : (markPeerState p state d).slots = d.slots := by
  unfold markPeerState
  split <;> rfl

theorem markPeerState_currentRequest :
    (markPeerState p state d).currentRequest = d.currentRequest := by
  unfold markPeerState
  split <;> rfl

/-! ## The peers -/

theorem peers_markPeerState : (markPeerState p state d).peers = d.peers := by
  unfold markPeerState
  split
  · rename_i i c₀ hfound
    exact Table.map_set_key (Table.lookup_get hfound) rfl
  · rfl

theorem peers_updateConnections : (updateConnections p packet d).peers = d.peers ∨
    (p ∉ d.peers ∧ (updateConnections p packet d).peers = p :: d.peers) := by
  unfold updateConnections
  split
  · rename_i i c₀ hfound
    exact Or.inl (Table.map_set_key (Table.lookup_get hfound) rfl)
  · rename_i hnone
    exact Or.inr ⟨lookup_peer_none hnone, rfl⟩

theorem nodup_updateConnections (hd : d.peers.Nodup) : (updateConnections p packet d).peers.Nodup := by
  have hcases : (updateConnections p packet d).peers = d.peers ∨ _ := peers_updateConnections
  rcases hcases with h | ⟨hnew, h⟩
  · rwa [h]
  · rw [h]
    exact List.nodup_cons.mpr ⟨hnew, hd⟩

/-! ## What a peer offers -/

theorem peerContainChunk_iff : peerContainChunk d.connections p hash = true ↔
    ∃ c ∈ d.connections, c.peerId = p ∧ hash ∈ c.chunks := by
  simp only [peerContainChunk, List.any_eq_true, Bool.decide_and, Bool.and_eq_true,
    decide_eq_true_eq]
  constructor
  · rintro ⟨c, hc, hid, h, hh, rfl⟩
    exact ⟨c, hc, hid, hh⟩
  · rintro ⟨c, hc, hid, hh⟩
    exact ⟨c, hc, hid, hash, hh, rfl⟩

theorem peerContainChunk_peers (h : peerContainChunk d.connections p hash = true) : p ∈ d.peers := by
  obtain ⟨c, hc, hid, -⟩ := peerContainChunk_iff.mp h
  exact mem_peers.mpr ⟨c, hc, hid⟩

theorem peerContainChunk_update (hd : d.peers.Nodup) :
    peerContainChunk (updateConnections p packet d).connections q hash = true ↔
      (q = p ∧ hash ∈ updateChunks packet) ∨
        (q ≠ p ∧ peerContainChunk d.connections q hash = true) := by
  rw [peerContainChunk_iff, peerContainChunk_iff]
  constructor
  · rintro ⟨c, hc, rfl, hh⟩
    rcases (mem_updateConnections hd).mp hc with ⟨hid, hchunks, -⟩ | ⟨hc, hne⟩
    · exact Or.inl ⟨hid, hchunks ▸ hh⟩
    · exact Or.inr ⟨hne, c, hc, rfl, hh⟩
  · rintro (⟨rfl, hh⟩ | ⟨hne, c, hc, rfl, hh⟩)
    · by_cases hq : q ∈ d.peers
      · obtain ⟨c, hc, hid⟩ := mem_peers.mp hq
        exact ⟨⟨q, updateChunks packet, c.state⟩,
          (mem_updateConnections hd).mpr (Or.inl ⟨rfl, rfl, Or.inl ⟨c, hc, hid, rfl⟩⟩), rfl, hh⟩
      · exact ⟨⟨q, updateChunks packet, .notWorking⟩,
          (mem_updateConnections hd).mpr (Or.inl ⟨rfl, rfl, Or.inr ⟨hq, rfl⟩⟩), rfl, hh⟩
    · exact ⟨c, (mem_updateConnections hd).mpr (Or.inr ⟨hc, hne⟩), rfl, hh⟩

theorem peerContainChunk_mark (hd : d.peers.Nodup) :
    peerContainChunk (markPeerState p state d).connections q hash = true ↔
      peerContainChunk d.connections q hash = true := by
  rw [peerContainChunk_iff, peerContainChunk_iff]
  constructor
  · rintro ⟨c, hc, rfl, hh⟩
    rcases (mem_markPeerState hd).mp hc with ⟨c', hc', -, rfl⟩ | ⟨hc, -⟩
    · exact ⟨c', hc', rfl, hh⟩
    · exact ⟨c, hc, rfl, hh⟩
  · rintro ⟨c, hc, rfl, hh⟩
    by_cases hid : c.peerId = p
    · exact ⟨{ c with state }, (mem_markPeerState hd).mpr (Or.inl ⟨c, hc, hid, rfl⟩), rfl, hh⟩
    · exact ⟨c, (mem_markPeerState hd).mpr (Or.inr ⟨hc, hid⟩), rfl, hh⟩

end Bittorrent
