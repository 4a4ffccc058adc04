import Bittorrent.Peer.Runs

/-!
# Where the DATA packets go

A GET is turned into a peer id by `bt_peer_id`, which looks for the sender's port, and every DATA
packet of the upload it starts is sent to what `find_addr` makes of that id. The history of a run
keeps, for every slot, the address whose GET started its upload and, for every DATA packet, that
address and the one it went to (`Addresses`). They are the same as long as every GET that starts an
upload comes from an address that the two searches give back (`Resolves`).

The searches are compared first, for any peer list (`findAddr_peerIdFrom_iff`): an address comes back
exactly if the first record with its port has its host as well, and no earlier record the same id as a
`short`. For the runs the addresses stand beside the state, one for each slot, noted when a GET starts an
upload. The invariant is that the peer of every active slot is found at the address noted for it
(`AddressInv`). Only a GET changes the peer of a slot (`started_step`), and then the address is its
sender's, which resolves by the condition; every DATA packet is for the peer of its slot, so it goes there.
-/

namespace Bittorrent

variable {env : Env} {a : Addr} {p c : Int} {u u' : Uploads} {up l : UploadLog} {e : Epoch}
  {slot : UploadSlot} {s s' : Peer} {ev : PeerEvent} {log : PeerLog}

/-! ## The two searches -/

/-- The address is that of a listed peer whose id is, as a `short`, the id of the first listed peer
with its port. -/
def Resolves (env : Env) (a : Addr) : Prop :=
  ∃ q r, env.peers.find? (fun p => p.addr.sinPort = a.sinPort) = some q ∧ r ∈ env.peers ∧ r.addr = a ∧
    r.id = q.id.bmod (2 ^ 16)

theorem find?_id {peers : List BtPeer} {r : BtPeer} (hids : (peers.map (·.id)).Nodup) (hr : r ∈ peers) :
    peers.find? (fun p => p.id = r.id) = some r := by
  cases hfind : peers.find? fun p => p.id = r.id with
  | none => exact absurd (List.find?_eq_none.mp hfind r hr) (by simp)
  | some q =>
    obtain ⟨i, hi⟩ := List.mem_iff_getElem?.mp (List.mem_of_find?_eq_some hfind)
    obtain ⟨j, hj⟩ := List.mem_iff_getElem?.mp hr
    obtain rfl : i = j := Table.eq_of_nodup_key hids hi hj (by simpa using List.find?_some hfind)
    exact hi.symm.trans hj

/-- `find_addr(bt_peer_id(a))` is `a` exactly if the address resolves. -/
theorem findAddr_peerIdFrom_iff (hids : (env.peers.map (·.id)).Nodup) :
    findAddr env (peerIdFrom env a) = some a ↔ Resolves env a := by
  constructor
  · intro h
    obtain ⟨r, hr, rfl⟩ := Option.map_eq_some_iff.mp h
    have hmem := List.mem_of_find?_eq_some hr
    have hid := List.find?_some hr
    rw [decide_eq_true_eq] at hid
    unfold peerIdFrom btPeerId at hid
    split at hid
    · rename_i q hq
      exact ⟨q, r, hq, hmem, rfl, hid⟩
    · rename_i hnone
      exact absurd (List.find?_eq_none.mp hnone r hmem) (by simp)
  · rintro ⟨q, r, hq, hmem, rfl, hid⟩
    rw [findAddr, peerIdFrom, btPeerId, hq]
    simp only
    rw [← hid, find?_id hids hmem]
    rfl

/-! ## The actions of a step -/

/-- Every upload is started as `Start` says. -/
def Starts (Start : Int → Int → Prop) (_ : Epoch) : StreamAction → Prop
  | .started p c => Start p c
  | _ => True

theorem starts_kept (Start : Int → Int → Prop) :
    Kept env (fun _ _ => True) (Starts Start) fun _ _ _ => True where
  stamp slot now e _ := ⟨trivial, trivial⟩
  timeout slot e _ := ⟨⟨trivial, trivial, trivial⟩, trivial⟩
  fresh slot c n stack now _ _ _ _ _ e _ := ⟨⟨trivial, trivial⟩, trivial⟩
  again slot head rest c stack _ _ _ _ _ e _ := ⟨⟨trivial, trivial⟩, trivial⟩
  ack slot slot' seq clk net net' acts htake e _ := by
    rw [(takeAck_ok htake).acts]
    split
    · exact ⟨⟨trivial, trivial, trivial⟩, trivial⟩
    · exact ⟨⟨trivial, trivial⟩, trivial⟩
  abort slot e _ := ⟨⟨trivial, trivial⟩, trivial⟩

theorem started_step {ev : UploadEvent} (h : (uploadMachine env).step ev u = .ok (u', l)) {i : Nat}
    (hmem : (i, .started p c) ∈ l) : ∃ clk, ev = .get p c clk := by
  have hgood : Good (fun _ _ => True) (Starts fun p c => ∃ clk, ev = .get p c clk) u [] :=
    ⟨fun _ _ _ => trivial, always_nil⟩
  have hkept : Kept env (fun _ _ => True) (Starts fun p c => ∃ clk, ev = .get p c clk)
    fun _ _ _ => True := starts_kept _
  have hafter := hkept.step hgood (fun _ _ => pairs_any u)
    (fun p c clk hev => hgood.inboundGet clk
      (fun slot _ e _ => ⟨⟨⟨clk, hev⟩, trivial⟩, trivial⟩)
      fun slot _ e _ => ⟨⟨trivial, trivial⟩, trivial⟩) h
  rw [List.nil_append] at hafter
  obtain ⟨pre, hstart⟩ := hafter.2.mem hmem
  exact hstart

/-- A slot of a peer is that of its GET. -/
def AskedBy (slot : UploadSlot) (e : Epoch) : Prop :=
  slot.uploadId ≠ idNull → ∃ c, e.asked = some (slot.uploadId, c)

/-- A DATA packet goes to the peer whose GET started the upload. -/
def SentToAsker (e : Epoch) : StreamAction → Prop
  | .transmitted p _ _ _ => ∃ c, e.asked = some (p, c)
  | _ => True

theorem askedBy_kept : Kept env AskedBy SentToAsker fun _ _ _ => True where
  stamp slot now e h := ⟨trivial, by rwa [AskedBy, stamp_uploadId]⟩
  timeout slot e h := ⟨⟨trivial, trivial, trivial⟩, h⟩
  fresh slot c n stack now hid _ _ _ _ e h := ⟨⟨h hid, trivial⟩, h⟩
  again slot head rest c stack hid _ _ _ _ e h := ⟨⟨h hid, trivial⟩, h⟩
  ack slot slot' seq clk net net' acts htake e h := by
    have hack := takeAck_ok htake
    have h' : AskedBy slot' e := by rwa [AskedBy, hack.uploadId]
    rw [hack.acts]
    split
    · exact ⟨⟨trivial, trivial, trivial⟩, h'⟩
    · exact ⟨⟨trivial, trivial⟩, h'⟩
  abort slot e h := ⟨⟨trivial, trivial⟩, fun hid => absurd rfl hid⟩

theorem askedBy_reach {max : Nat} {unset : Nat → UnsetSlot}
    (h : (uploadMachine env).Reach (· = initUploads max unset) Machine.Any u up) :
    Good AskedBy SentToAsker u up := by
  refine h.invariant (fun s hs => ?_) fun s log ev s' l _ hI _ hs => ?_
  · subst hs
    exact good_initUploads fun slot hfree _ _ hid => absurd hfree hid
  · refine askedBy_kept.step hI (fun _ _ => pairs_any s) (fun p c clk _ => ?_) hs
    exact hI.inboundGet clk (fun slot _ e _ => ⟨⟨trivial, trivial⟩, fun _ => ⟨c, rfl⟩⟩)
      fun slot _ e he => ⟨⟨trivial, trivial⟩, he⟩

/-- The packet is a GET for a chunk this peer has, and an upload slot is free. -/
def StartsUpload (s : Peer) (packet : Incoming) : Prop :=
  validatePacket packet.magicNumber packet.versionNumber packet.packetType = true ∧
    packet.packetType = PacketType.get ∧
    findChunk (readHash packet.buf packet.headerLength) s.downloads.hasChunkTable = true ∧
    getUploadIndexById idNull s.uploads ≠ none

theorem download_uploads {r : Except Fault (Downloads × DownloadLog)}
    (h : s.download r = .ok (s', log)) : log.uploads = [] := by
  obtain ⟨d, down, -, -, rfl⟩ := download_ok h
  exact uploads_inr down

theorem upload_uploads {r : Except Fault (Uploads × UploadLog)} (h : s.upload r = .ok (s', log)) :
    ∃ u, r = .ok (u, log.uploads) := by
  obtain ⟨u, up, rfl, -, rfl⟩ := upload_ok h
  exact ⟨u, by rw [uploads_inl]⟩

theorem peer_started {i : Nat} (h : (peerMachine env).step ev s = .ok (s', log))
    (hmem : (i, .started p c) ∈ log.uploads) : ∃ src packet clk, ev = .packet src packet clk ∧
      p = peerIdFrom env src ∧ StartsUpload s packet := by
  have hdownload : ∀ {r}, s.download r = .ok (s', log) → False := fun hr => by
    rw [download_uploads hr] at hmem
    cases hmem
  have hupload : ∀ ev, s.upload ((uploadMachine env).step ev s.uploads) = .ok (s', log) →
      ∃ clk, ev = .get p c clk := fun ev hr => by
    obtain ⟨u, hu⟩ := upload_uploads hr
    exact started_step hu hmem
  cases ev with
  | packet src packet clk =>
    have h : processInboundUdp env src packet clk s = .ok (s', log) := h
    unfold processInboundUdp at h
    simp only at h
    split_ifs at h with hvalid _ _ hget
    · exact (hdownload h).elim
    · exact (hdownload h).elim
    · unfold inboundGetPacket at h
      simp only at h
      split_ifs at h with hfound
      · obtain ⟨clk', he⟩ := hupload (.get (peerIdFrom env src) _ clk) h
        cases he
        refine ⟨src, packet, clk, rfl, rfl, hvalid, hget, hfound, fun hnone => ?_⟩
        obtain ⟨u, hu⟩ := upload_uploads h
        rw [inboundGet_none hnone] at hu
        obtain ⟨-, hnil⟩ := Prod.mk.inj (Except.ok.inj hu)
        rw [← hnil] at hmem
        cases hmem
      · cases h
        cases hmem
    · exact (hdownload h).elim
    · obtain ⟨clk', he⟩ := hupload (.ack _ _ clk) h
      cases he
    · exact (hdownload h).elim
    · cases h
      cases hmem
  | line outf parsed => exact (hdownload h).elim
  | send clk =>
    obtain ⟨clk', he⟩ := hupload (.send clk) h
    cases he
  | clean now =>
    obtain ⟨clk', he⟩ := hupload (.clean now) h
    cases he
  | crash clk => exact (hdownload h).elim
  | finish => exact (hdownload (r := .ok (finishRequest s.downloads, [])) h).elim

/-! ## The history -/

/-- The address whose GET started the upload of each slot; and, for every DATA packet sent, that
address and the one it was sent to. -/
structure Addresses where
  opener : Nat → Option Addr
  sent : List (Option Addr × Option Addr)

def Addresses.fresh : Addresses := ⟨fun _ => none, []⟩

/-- Where a packet came from. -/
def PeerEvent.source : PeerEvent → Option Addr
  | .packet src _ _ => some src
  | _ => none

def Addresses.note (env : Env) (src : Option Addr) (g : Addresses) : Nat × StreamAction → Addresses
  | (i, .started _ _) => { g with opener := Function.update g.opener i src }
  | (i, .transmitted p _ _ _) => { g with sent := g.sent ++ [(g.opener i, findAddr env p)] }
  | _ => g

/-- A peer with the addresses of its uploads beside its state. -/
def addressMachine (env : Env) :
    Machine (Peer × Addresses) PeerEvent ((Nat × StreamAction) ⊕ DownloadAction) Fault :=
  (peerMachine env).observe fun g _ ev l _ => (PeerLog.uploads l).foldl (Addresses.note env ev.source) g

/-- The peer of every upload is at the address of its GET, and so was every DATA packet sent. -/
structure AddressInv (env : Env) (g : Addresses) (up : UploadLog) : Prop where
  opened : ∀ i p c, (epoch i up).asked = some (p, c) →
    ∃ a, g.opener i = some a ∧ findAddr env p = some a
  sent : ∀ x ∈ g.sent, ∃ a, x = (some a, some a)

theorem next_asked (e : Epoch) (act : StreamAction) (h : (e.next act).asked = some (p, c)) :
    act = .started p c ∨ ((∀ p c, act ≠ .started p c) ∧ e.asked = some (p, c)) := by
  cases act with
  | started p' c' =>
    cases h
    exact Or.inl rfl
  | aborted => cases h
  | transmitted p' seq bytes retransmit =>
    refine Or.inr ⟨nofun, ?_⟩
    unfold Epoch.next at h
    dsimp only at h
    split_ifs at h <;> exact h
  | _ => exact Or.inr ⟨nofun, h⟩

theorem AddressInv.note {g : Addresses} {src : Option Addr} {i : Nat} {act : StreamAction}
    (h : AddressInv env g up)
    (hstart : ∀ p c, act = .started p c → ∃ a, src = some a ∧ findAddr env p = some a)
    (hsent : SentToAsker (epoch i up) act) :
    AddressInv env (g.note env src (i, act)) (up ++ [(i, act)]) := by
  have hopener : ∀ j, (i = j → ∀ p c, act ≠ .started p c) →
      (g.note env src (i, act)).opener j = g.opener j := by
    intro j hj
    cases act with
    | started p c => exact Function.update_of_ne (fun he => hj he.symm p c rfl) _ _
    | _ => rfl
  refine ⟨fun j p c hasked => ?_, fun x hx => ?_⟩
  · change (epoch j (up ++ [act].map (i, ·))).asked = some (p, c) at hasked
    by_cases hij : i = j
    · subst hij
      rw [epoch_append] at hasked
      rcases next_asked _ act hasked with rfl | ⟨hnot, hold⟩
      · obtain ⟨a, rfl, ha⟩ := hstart p c rfl
        exact ⟨a, Function.update_self _ _ _, ha⟩
      · rw [hopener i fun _ => hnot]
        exact h.opened i p c hold
    · rw [epoch_append_ne hij] at hasked
      rw [hopener j fun he => absurd he hij]
      exact h.opened j p c hasked
  · cases act with
    | transmitted p seq bytes retransmit =>
      rcases List.mem_append.mp hx with hx | hx
      · exact h.sent x hx
      · -- the slot's upload was asked for by the peer it is sent to
        obtain ⟨c, hasked⟩ := hsent
        obtain ⟨a, hopen, hfind⟩ := h.opened i p c hasked
        rw [List.mem_singleton.mp hx, hopen, hfind]
        exact ⟨a, rfl⟩
    | _ => exact h.sent x hx

theorem AddressInv.notes {src : Option Addr} : ∀ {l : UploadLog} {g : Addresses} {up : UploadLog},
    AddressInv env g up →
    (∀ i p c, (i, .started p c) ∈ l → ∃ a, src = some a ∧ findAddr env p = some a) →
    Always (fun pre x => SentToAsker (epoch x.1 pre) x.2) (up ++ l) →
    AddressInv env (l.foldl (Addresses.note env src) g) (up ++ l) := by
  intro l
  induction l with
  | nil =>
    intro g up h _ _
    rwa [List.append_nil]
  | cons x l ih =>
    obtain ⟨i, act⟩ := x
    intro g up h hstart hsent
    have hnote : AddressInv env (g.note env src (i, act)) (up ++ [(i, act)]) :=
      h.note (fun p c he => hstart i p c (he ▸ List.mem_cons_self)) (hsent up (i, act) l rfl)
    rw [List.append_cons] at hsent ⊢
    exact ih hnote (fun j p c hmem => hstart j p c (List.mem_cons_of_mem _ hmem)) hsent

/-! ## Runs -/

/-- What a step must meet: a GET that starts an upload comes from an address that resolves. -/
def GetsResolve (env : Env) (s : Peer × Addresses) (_ : PeerLog) : PeerEvent → Prop
  | .packet src packet _ => StartsUpload s.1 packet → Resolves env src
  | _ => True

variable {max : Nat} {unset : Nat → UnsetSlot} {has : List Chunk} {files : String → Memory}

/-- A peer at its start, with no address noted. -/
def FreshAddresses (max : Nat) (unset : Nat → UnsetSlot) (has : List Chunk) (files : String → Memory)
    (t : Peer × Addresses) : Prop := t = (initPeer max unset has files, .fresh)

/-- The two searches give an address back exactly if it resolves; and in a run in which the senders of
the GETs that start uploads do, every DATA packet goes to the address whose GET it answers. -/
theorem data_returns (hids : (env.peers.map (·.id)).Nodup) :
    (∀ a, findAddr env (peerIdFrom env a) = some a ↔ Resolves env a) ∧
    ∀ {t : Peer × Addresses} {log : PeerLog}, (addressMachine env).Reach
      (FreshAddresses max unset has files) (GetsResolve env) t log →
      ∀ x ∈ t.2.sent, ∃ a, x = (some a, some a) := by
  refine ⟨fun a => findAddr_peerIdFrom_iff hids, fun {t log} h => ?_⟩
  have hinv : AddressInv env t.2 log.uploads := by
    refine h.invariant (I := fun t log => AddressInv env t.2 (PeerLog.uploads log)) (fun t ht => ?_)
      fun t log ev t' l hr hI hok hs => ?_
    · rw [show t = _ from ht]
      exact ⟨fun i p c hasked => (by cases hasked), fun x hx => (by cases hx)⟩
    · have hreach := uploads_reach (hr.step hok hs |>.forget
        (fun t ht => (congrArg Prod.fst ht : t.1 = initPeer max unset has files))
        fun _ _ _ _ => trivial)
      obtain ⟨hs, hhistory⟩ := Machine.observe_step.mp hs
      have hsent := (askedBy_reach hreach).2
      rw [uploads_append] at hsent ⊢
      rw [hhistory]
      refine hI.notes (fun i p c hmem => ?_) hsent
      obtain ⟨src, packet, clk, rfl, rfl, hstarts⟩ := peer_started hs hmem
      exact ⟨src, rfl, (findAddr_peerIdFrom_iff hids).mpr (hok hstarts)⟩
  exact hinv.sent

/-- A peer that has chunk 0 and whose list is `peers`. -/
def addressEnv (peers : List BtPeer) : Env :=
  { sampleEnv with peers, totalChunkTable := [requestEntry (0, sampleHash 0)] }

/-- Peer 1 asks for the chunk and gets its first packet. -/
theorem data_returns_one : ∃ t : Peer × Addresses, t.2.sent.length = 1 ∧
    ∀ x ∈ t.2.sent, ∃ a, x = (some a, some a) := by
  have hids : ((addressEnv [⟨1, ⟨0, 1⟩⟩]).peers.map (·.id)).Nodup := by decide
  have hstart : (addressMachine (addressEnv [⟨1, ⟨0, 1⟩⟩])).Reach
      (FreshAddresses 1 (fun _ => unsetZero) [requestEntry (0, sampleHash 0)] fun _ _ => 0)
      (GetsResolve (addressEnv [⟨1, ⟨0, 1⟩⟩]))
      (initPeer 1 (fun _ => unsetZero) [requestEntry (0, sampleHash 0)] fun _ _ => 0, .fresh) [] :=
    .start rfl
  have hget := hstart.step
    (e := PeerEvent.packet ⟨0, 1⟩ (samplePacket (.get (sampleHash 0))) fun _ => 0)
    (fun _ => ⟨⟨1, ⟨0, 1⟩⟩, ⟨1, ⟨0, 1⟩⟩, rfl, List.mem_cons_self, rfl, rfl⟩) rfl
  have hsend := hget.step (e := PeerEvent.send fun _ => passAt 0) trivial rfl
  refine ⟨_, ?_, (data_returns hids).2 hsend⟩
  rfl

/-- Peer 3 shares its port with peer 1, on another host: its chunk goes to peer 1. A GET from a port
that is not in the list starts an upload towards no address. -/
theorem data_goes_astray : ∃ (s s' : Peer) (log log' : PeerLog) (g g' : Addresses),
    (addressMachine (addressEnv [⟨1, ⟨7, 1⟩⟩, ⟨3, ⟨0, 1⟩⟩])).Reach
      (FreshAddresses 1 (fun _ => unsetZero) [requestEntry (0, sampleHash 0)] fun _ _ => 0) Machine.Any
      (s, g) log ∧ g.sent = [(some ⟨0, 1⟩, some ⟨7, 1⟩)] ∧
    (addressMachine (addressEnv [⟨1, ⟨7, 1⟩⟩, ⟨3, ⟨0, 1⟩⟩])).Reach
      (FreshAddresses 1 (fun _ => unsetZero) [requestEntry (0, sampleHash 0)] fun _ _ => 0) Machine.Any
      (s', g') log' ∧ g'.sent = [(some ⟨0, 2⟩, none)] := by
  have hstart : (addressMachine (addressEnv [⟨1, ⟨7, 1⟩⟩, ⟨3, ⟨0, 1⟩⟩])).Reach
      (FreshAddresses 1 (fun _ => unsetZero) [requestEntry (0, sampleHash 0)] fun _ _ => 0) Machine.Any
      (initPeer 1 (fun _ => unsetZero) [requestEntry (0, sampleHash 0)] fun _ _ => 0, .fresh) [] :=
    .start rfl
  have hport := hstart.runAny [.packet ⟨0, 1⟩ (samplePacket (.get (sampleHash 0))) fun _ => 0,
    .send fun _ => passAt 0] rfl
  have hunlisted := hstart.runAny [.packet ⟨0, 2⟩ (samplePacket (.get (sampleHash 0))) fun _ => 0,
    .send fun _ => passAt 0] rfl
  refine ⟨_, _, _, _, _, _, hport, ?_, hunlisted, ?_⟩
  · rfl
  · rfl

end Bittorrent
