import Bittorrent.Upload.Chunk
import Bittorrent.Upload.Slot

/-!
# The bytes of an upload

Whatever path gives `send_data_packets` a sequence number, the packet carries the bytes of the master
data file at that number's place in the chunk, so a retransmission carries what the first transmission
did, and the 354 payloads together are the chunk (`reassembly`).

A packet's bytes depend on its number and its chunk alone, as long as the read stays inside the file, so the
step lemma has nothing to say about the queue: `sendPass_carries` covers a new packet and one that timed out
alike. `carries_invariant` carries it over the runs of an upload that is its peer's only one. That the 354
pieces make the chunk is an induction over the packets that are full, with the rest as the last one
(`flatMap_packetBytes`, `flatMap_packetBytes_all`).
-/

namespace Bittorrent

variable {env : Env} {u : Uploads} {p q c : Int} {i : Nat} {slot : UploadSlot} {log : UploadLog}

/-! ## The bytes of a packet -/

/-- What the packet numbered `seq` of the chunk `c` is to carry: 1484 bytes of the file, the last packet
what is left of the chunk. -/
def packetBytes (env : Env) (c : Int) (seq : Nat) : List UInt8 :=
  readBytes env.masterData.bytes (c.toNat * btChunkSize + (seq - 1) * maxPayloadSize)
    (if seq = maxPacketPerChunk then 436 else maxPayloadSize)

theorem chunkData_packetBytes {n : Nat} (hc : ChunkHeld env c) (hn : n < maxPacketPerChunk)
    (stack : Memory) : chunkData env stack c n = packetBytes env c (n + 1) := by
  have hsize : dataSize n = if n + 1 = maxPacketPerChunk then 436 else maxPayloadSize := by
    by_cases hlast : n = 353
    · subst hlast
      rfl
    · rw [dataSize, if_neg (by simp only [maxPacketPerChunk]; omega),
        if_neg (by simp only [maxPacketPerChunk]; omega)]
  rw [hc.chunkData hn, packetBytes, Nat.add_sub_cancel, hsize]

/-- The first `k` packets, all but the last of a chunk, carry its first bytes. -/
theorem flatMap_packetBytes (env : Env) (c : Int) {k : Nat} (hk : k < maxPacketPerChunk) :
    (List.range' 1 k).flatMap (packetBytes env c) =
      readBytes env.masterData.bytes (c.toNat * btChunkSize) (k * maxPayloadSize) := by
  induction k with
  | zero => simp [readBytes]
  | succ k ih =>
    have hnext : packetBytes env c (1 + 1 * k) = readBytes env.masterData.bytes
        (c.toNat * btChunkSize + k * maxPayloadSize) maxPayloadSize := by
      rw [packetBytes, if_neg (by omega), show 1 + 1 * k - 1 = k by omega]
    rw [List.range'_concat, List.flatMap_append, ih (by omega), List.flatMap_singleton, hnext,
      ← readBytes_append, Nat.succ_mul]

theorem flatMap_packetBytes_all (env : Env) (c : Int) :
    (List.range' 1 maxPacketPerChunk).flatMap (packetBytes env c) = masterChunk env c := by
  have hlast : packetBytes env c maxPacketPerChunk = readBytes env.masterData.bytes
      (c.toNat * btChunkSize + 353 * maxPayloadSize) 436 := by
    rw [packetBytes, if_pos rfl]
    rfl
  rw [show maxPacketPerChunk = 353 + 1 from rfl, List.range'_concat, List.flatMap_append,
    flatMap_packetBytes env c (by decide), List.flatMap_singleton, show 1 + 1 * 353 = maxPacketPerChunk from rfl,
    hlast, ← readBytes_append]
  rfl

/-! ## The packets of an upload -/

/-- Every DATA packet of the actions is for `p` and carries its bytes of the chunk `c`. -/
def CarriesChunk (env : Env) (p c : Int) (acts : List StreamAction) : Prop :=
  ∀ q seq bytes retransmit, .transmitted q seq bytes retransmit ∈ acts →
    q = p ∧ 1 ≤ seq ∧ seq ≤ maxPacketPerChunk ∧ bytes = packetBytes env c seq

theorem CarriesChunk.nil : CarriesChunk env p c [] := fun _ _ _ _ hmem => absurd hmem List.not_mem_nil

theorem CarriesChunk.append {acts acts' : List StreamAction} (h : CarriesChunk env p c acts)
    (h' : CarriesChunk env p c acts') : CarriesChunk env p c (acts ++ acts') := fun q seq bytes retransmit hmem =>
  (List.mem_append.mp hmem).elim (h q seq bytes retransmit) (h' q seq bytes retransmit)

theorem sendPass_carries (hc : ChunkHeld env c) (pass : Pass) (rto : Int) (slot : UploadSlot) :
    CarriesChunk env p c (slot.sendPass env p c pass rto).2 := by
  intro q seq bytes retransmit hmem
  obtain ⟨rfl, n, hn, rfl, rfl⟩ := sendPass_transmitted hmem
  exact ⟨rfl, Nat.le_add_left 1 n, hn, chunkData_packetBytes hc hn _⟩

theorem aborted_carries : CarriesChunk env p c [.aborted] := by
  intro q seq bytes retransmit hmem
  simp at hmem

theorem Acknowledged.carries {n : Nat} {slot' : UploadSlot} {acts : List StreamAction}
    (h : Acknowledged slot n slot' acts) : CarriesChunk env p c acts := by
  intro q seq bytes retransmit hmem
  rw [h.acts] at hmem
  split_ifs at hmem <;> simp at hmem

/-! ## Runs -/

/-- The GET read last, from `p` for the chunk `c`, was given slot `i`. -/
def JustStarted (env : Env) (p c : Int) (i : Nat) (u : Uploads) : Prop :=
  ∃ max unset u₀ log₀ clk,
    (uploadMachine env).Reach (· = initUploads max unset) Machine.Any u₀ log₀ ∧
      (i, .started p c) ∈ (inboundGet p c clk u₀).2 ∧ u = (inboundGet p c clk u₀).1

theorem JustStarted.found (h : JustStarted env p c i u) :
    ∃ slot, u.slots[i]? = some slot ∧ slot.uploadId = p ∧ slot.uploadChunkId = c := by
  obtain ⟨max, unset, u₀, log₀, clk, -, hstarted, rfl⟩ := h
  cases hl : getUploadIndexById idNull u₀ with
  | none =>
    rw [inboundGet_none hl] at hstarted
    cases hstarted
  | some r =>
    obtain ⟨index, slot₀⟩ := r
    have hstart := Table.get_set_self (b := slot₀.start p c (clk 0)) (Table.lookup_lt hl)
    obtain ⟨j, slot, hp, hget⟩ := inboundGet_found hl p c clk
    rw [hget] at hstarted ⊢
    obtain rfl : i = index := by simpa using hstarted
    by_cases hij : j = i
    · -- the slot just started is the first of its peer
      subst hij
      have hslot := getUploadIndexById_get hp
      rw [show (u₀.write j _).slots[j]? = _ from hstart] at hslot
      cases hslot
      exact ⟨_, Table.get_set_self (Table.lookup_lt hp), rfl, rfl⟩
    · exact ⟨_, (Table.get_set_ne hij).trans hstart, rfl, rfl⟩

/-- When `send_data_packets` runs, no other slot than `i` is of `p` while slot `i` is. -/
def OnlyUpload (p : Int) (i : Nat) (u : Uploads) : UploadEvent → Prop
  | .send _ => ∀ slot, u.slots[i]? = some slot → slot.uploadId = p → OnlySlot p i u
  | _ => True

theorem carries_invariant (hc : ChunkHeld env c)
    (h : (uploadMachine env).Reach (JustStarted env p c i)
      (fun u _ ev => Untouched i u ev ∧ OnlyUpload p i u ev) u log) :
    ∃ slot, u.slots[i]? = some slot ∧
      (slot.uploadId ≠ idNull → slot.uploadId = p ∧ slot.uploadChunkId = c) ∧
      CarriesChunk env p c (slotLog i log) := by
  refine slot_invariant (P := fun slot acts =>
      (slot.uploadId ≠ idNull → slot.uploadId = p ∧ slot.uploadChunkId = c) ∧ CarriesChunk env p c acts)
    (fun _ _ _ => And.left) (fun u hu => ?_) (fun u log ev slot acts slot' _ hev hi hP hs => ?_) h
  · obtain ⟨slot, hi, hid, hchunk⟩ := hu.found
    exact ⟨slot, hi, fun _ => ⟨hid, hchunk⟩, .nil⟩
  · obtain ⟨hids, hcarries⟩ := hP
    cases hs with
    | same => exact ⟨hids, hcarries.append .nil⟩
    | ack hfound htake hn =>
      have hack := takeAck_ok htake
      rw [hack.uploadId, hack.uploadChunkId]
      exact ⟨hids, hcarries.append hack.carries⟩
    | last hfound htake =>
      exact ⟨fun hne => absurd rfl hne, hcarries.append ((takeAck_ok htake).carries.append aborted_carries)⟩
    | abort => exact ⟨fun hne => absurd rfl hne, hcarries.append aborted_carries⟩
    | send pass hfound hid =>
      obtain ⟨hslot, hchunk⟩ := hids hid
      have hpath : Path (fun s acts s' =>
          (s'.uploadId = s.uploadId ∧ s'.uploadChunkId = s.uploadChunkId) ∧ CarriesChunk env p c acts) slot
          (slot.passes env p pass u.net.rto (sendPairs u)).2
          (slot.passes env p pass u.net.rto (sendPairs u)).1 :=
        passes_path env pass u.net.rto (sendPairs u) slot (fun c' s k hmem _ => by
          obtain rfl : c' = c := ((hev.2 slot hi hslot).chunk hi hmem).trans hchunk
          exact ⟨sendPass_ids _ _ _ _ _ _, sendPass_carries hc _ _ _⟩) hslot
      have hsent := hpath.invariant_nil (I := fun s acts =>
          (s.uploadId = slot.uploadId ∧ s.uploadChunkId = slot.uploadChunkId) ∧ CarriesChunk env p c acts)
        (fun s acts acts' s' hs hmove =>
          ⟨⟨hmove.1.1.trans hs.1.1, hmove.1.2.trans hs.1.2⟩, hs.2.append hmove.2⟩) ⟨⟨rfl, rfl⟩, .nil⟩
      rw [hslot]
      exact ⟨fun _ => ⟨hsent.1.1.trans hslot, hsent.1.2.trans hchunk⟩, hcarries.append hsent.2⟩

/-- In every run of an upload of the chunk `c`, which the master data file has to its end and which is
the peer's only upload, every packet carries its bytes of the master data file, whether it is sent for the
first time or again, and the packets 1 to 354 together carry the chunk. -/
theorem reassembly (hc : ChunkHeld env c)
    (h : (uploadMachine env).Reach (JustStarted env p c i)
      (fun u _ ev => Untouched i u ev ∧ OnlyUpload p i u ev) u log) :
    CarriesChunk env p c (slotLog i log) ∧
      (List.range' 1 maxPacketPerChunk).flatMap (packetBytes env c) =
        readBytes env.masterData.bytes (c.toNat * btChunkSize) btChunkSize := by
  obtain ⟨slot, -, -, hcarries⟩ := carries_invariant hc h
  exact ⟨hcarries, flatMap_packetBytes_all env c⟩

/-- The first packet of chunk 0, and the same packet again after a timeout. -/
theorem reassembly_again : ∃ log, slotLog 0 log = [.transmitted 1 1 (chunkData sampleEnv (fun _ => 0) 0 0) false,
      .windowTimeout, .logWindow 1, .transmitted 1 1 (chunkData sampleEnv (fun _ => 0) 0 0) true] ∧
    CarriesChunk sampleEnv 1 0 (slotLog 0 log) := by
  have hstart : JustStarted sampleEnv 1 0 0 (inboundGet 1 0 (fun _ => 0) (initUploads 1 fun _ => unsetZero)).1 :=
    ⟨1, _, _, _, fun _ => 0, .start rfl, by decide, rfl⟩
  have honly : ∀ (u : Uploads) pass, u.slots.length = 1 → OnlyUpload 1 0 u (.send pass) :=
    fun u pass hlen _ _ _ j other hj _ => by
      have hlt := (List.getElem?_eq_some_iff.mp hj).1
      omega
  have hopened : (uploadMachine sampleEnv).Reach (JustStarted sampleEnv 1 0 0)
      (fun u _ ev => Untouched 0 u ev ∧ OnlyUpload 1 0 u ev) _ [] := .start hstart
  have hreach := hopened.run (C := fun u ev => Untouched 0 u ev ∧ OnlyUpload 1 0 u ev)
    (fun _ _ _ => id)
    [.send fun _ => passAt 0, .send fun _ => passAt 2000000] ⟨⟨trivial, honly _ _ rfl⟩, fun u l hu =>
      ⟨⟨trivial, honly u _ (congrArg (·.1.slots.length) (Except.ok.inj hu).symm)⟩,
        fun _ _ _ => trivial⟩⟩ rfl
  exact ⟨_, rfl, (reassembly ⟨Int.le_refl 0, by decide, by decide⟩ hreach).1⟩

end Bittorrent
