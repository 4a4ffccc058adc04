import Bittorrent.Upload.Queue

/-!
# One chunk per upload

`send_data_packets` looks a stream up by its peer and takes the chunk from a list of its own. As
long as no peer has uploads of two chunks when it runs (`SameChunk`), every packet of a stream
carries its piece of the chunk the stream was asked for (`OneChunk`). A second GET of another chunk
mixes the two in one numbering.

What a packet carries is computed from the chunk that the pass takes from its list, not from the slot. So
the step lemma needs that the two agree, and `SameChunk` is what makes them agree: whichever slot of the
peer the pass has found, and whichever entry of the list it has come with, the chunk is the same
(`chunkInv_kept`, through the relation `R` of `Kept`). That a packet's bytes are then its piece of the file
is arithmetic with the packet's place (`dataOffset_eq`, `dataSize_eq`), for a chunk that the file holds to
its end: a read that stops short would leave bytes of the packet before it (`ChunkHeld.chunkData`).
-/

namespace Bittorrent

variable {env : Env} {u u' : Uploads} {p : Int} {i : Nat} {slot slot' : UploadSlot} {e : Epoch}
  {log : UploadLog}

/-! ## The bytes of a chunk -/

/-- The chunk with an id in the master data file. -/
def masterChunk (env : Env) (chunkId : Int) : List UInt8 :=
  readBytes env.masterData.bytes (chunkId.toNat * btChunkSize) btChunkSize

/-- The offsets of the chunk fit an `int`, and the master data file reaches to its end. -/
structure ChunkHeld (env : Env) (chunkId : Int) : Prop where
  nonneg : 0 ≤ chunkId
  range : chunkId < 4096
  whole : (chunkId.toNat + 1) * btChunkSize ≤ env.masterData.size

/-- What the packet numbered `seq` carries of a chunk. -/
def piece (chunk : List UInt8) (seq : Nat) : List UInt8 :=
  (chunk.drop ((seq - 1) * maxPayloadSize)).take maxPayloadSize

theorem dataOffset_eq {c : Int} {n : Nat} (h0 : 0 ≤ c) (h1 : c < 4096) (hn : n < maxPacketPerChunk) :
    (dataOffset c n).toNat = c.toNat * btChunkSize + n * maxPayloadSize := by
  simp only [maxPacketPerChunk] at hn
  have hoff : dataOffset c n = c * btChunkSize + n * maxPayloadSize := by
    rw [dataOffset, toInt32]
    apply Int.bmod_eq_of_le <;> simp only [btChunkSize, maxPayloadSize] <;> omega
  rw [hoff]
  simp only [btChunkSize, maxPayloadSize]
  omega

theorem dataSize_eq {n : Nat} (hn : n < maxPacketPerChunk) :
    dataSize n = min maxPayloadSize (btChunkSize - n * maxPayloadSize) := by
  simp only [maxPacketPerChunk] at hn
  by_cases hlast : n = 353
  · subst hlast
    rfl
  · rw [dataSize, if_neg (by simp only [maxPacketPerChunk]; omega)]
    simp only [btChunkSize, maxPayloadSize]
    omega

/-- Every read is within the chunk, so nothing is left of what was on the stack. -/
theorem ChunkHeld.chunkData {c : Int} {n : Nat} (h : ChunkHeld env c) (hn : n < maxPacketPerChunk)
    (stack : Memory) : chunkData env stack c n =
      readBytes env.masterData.bytes (c.toNat * btChunkSize + n * maxPayloadSize) (dataSize n) := by
  have hwhole := h.whole
  have hsize := dataSize_eq hn
  rw [Bittorrent.chunkData, readBytes_readFile, dataOffset_eq h.nonneg h.range hn]
  rw [dataOffset_eq h.nonneg h.range hn, hsize]
  simp only [maxPacketPerChunk, btChunkSize, maxPayloadSize] at *
  omega

theorem chunkData_eq {c : Int} {n : Nat} (h : ChunkHeld env c) (hn : n < maxPacketPerChunk)
    (stack : Memory) : chunkData env stack c n = piece (masterChunk env c) (n + 1) := by
  rw [h.chunkData hn, dataSize_eq hn, piece, masterChunk, readBytes_slice, Nat.add_sub_cancel]

/-- A payload for the packet at a position of a chunk: of the packet's size, and its piece of the chunk
if the master data file has the chunk. -/
def PayloadOf (env : Env) (chunkId : Int) (n : Nat) (bytes : List UInt8) : Prop :=
  bytes.length = dataSize n ∧ (ChunkHeld env chunkId → bytes = piece (masterChunk env chunkId) (n + 1))

theorem payloadOf_chunkData {n : Nat} (hn : n < maxPacketPerChunk) (stack : Memory) (c : Int) :
    PayloadOf env c n (chunkData env stack c n) :=
  ⟨by rw [Bittorrent.chunkData, readBytes_length], fun h => chunkData_eq h hn stack⟩

/-! ## The invariant -/

def ChunkInv (env : Env) (p : Int) (slot : UploadSlot) (e : Epoch) : Prop :=
  QueueInv slot e ∧
    (slot.uploadId = p → slot.uploadId ≠ idNull → ChunkHeld env slot.uploadChunkId)

/-- A packet transmitted to `p` carries its piece of the chunk that the GET asked for which started
the numbering. -/
def OneChunk (env : Env) (p : Int) (e : Epoch) : StreamAction → Prop
  | .transmitted peerId seq bytes _ => peerId = p → ∃ c, e.asked = some (p, c) ∧
      1 ≤ seq ∧ seq ≤ maxPacketPerChunk ∧ bytes = piece (masterChunk env c) seq
  | _ => True

theorem ChunkInv.transmitted (h : ChunkInv env p slot e) (hid : slot.uploadId ≠ idNull) {c : Int}
    (hc : slot.uploadId = p → slot.uploadChunkId = c) {n : Nat} (hn : n < maxPacketPerChunk)
    (stack : Memory) (timeout : Bool) :
    OneChunk env p e (.transmitted slot.uploadId (n + 1) (chunkData env stack c n) timeout) := by
  intro hp
  obtain ⟨a, t, hout⟩ := h.1.active hid
  have hheld := h.2 hp hid
  rw [hc hp] at hheld
  refine ⟨c, ?_, Nat.le_add_left 1 n, hn, chunkData_eq hheld hn stack⟩
  rw [hout.asked, hp, hc hp]

theorem chunkInv_kept (p : Int) :
    Kept env (ChunkInv env p) (OneChunk env p) fun q c c' => q = p → c = c' where
  stamp slot now e h := by
    refine ⟨trivial, h.1.stamp now, fun hid hne => ?_⟩
    rw [stamp_uploadId] at hid hne
    rw [stamp_uploadChunkId]
    exact h.2 hid hne
  timeout slot e h :=
    ⟨⟨trivial, trivial, trivial⟩, h.1.congr rfl rfl rfl rfl rfl rfl rfl rfl, h.2⟩
  fresh slot c n stack now hid hR hroom hn hlt e h := by
    obtain ⟨-, hqueue⟩ := queueInv_fresh now hid hn hlt (chunkData env stack c n) e h.1
    exact ⟨⟨h.transmitted hid hR hlt stack false, trivial⟩, hqueue, h.2⟩
  again slot head rest c stack hid hR hhead hseq hlt e h :=
    ⟨⟨h.transmitted hid hR hlt stack true, trivial⟩, h⟩
  ack slot slot' seq clk net net' acts htake e h := by
    have hack := takeAck_ok htake
    have hkept : Kept env QueueInv QueueStep fun _ _ _ => True := queueInv_kept
    obtain ⟨-, hqueue⟩ := hkept.ack _ _ _ _ _ _ _ htake e h.1
    refine ⟨?_, hqueue, fun hp hne => ?_⟩
    · rw [hack.acts]
      split
      · exact ⟨trivial, trivial, trivial⟩
      · exact ⟨trivial, trivial⟩
    · rw [hack.uploadId] at hp hne
      rw [hack.uploadChunkId]
      exact h.2 hp hne
  abort slot e h :=
    ⟨⟨trivial, trivial⟩, Or.inl ⟨rfl, rfl, rfl, rfl⟩, fun _ hne => absurd rfl hne⟩

/-! ## Runs -/

/-- The uploads to `p` are all of one chunk. -/
def SameChunk (p : Int) (u : Uploads) : Prop := Pairs (fun q c c' => q = p → c = c') u

/-- When `send_data_packets` runs no two uploads to `p` are of different chunks, and `p` is given
only chunks whose offsets fit an `int` and that the master data file has to their end. -/
def NoSecondChunk (env : Env) (p : Int) (u : Uploads) (_ : UploadLog) : UploadEvent → Prop
  | .send _ => SameChunk p u
  | .get peerId chunkId _ => peerId = p → ChunkHeld env chunkId
  | _ => True

theorem chunkInv_reach {max : Nat} {unset : Nat → UnsetSlot}
    (h : (uploadMachine env).Reach (· = initUploads max unset) (NoSecondChunk env p) u log) :
    Good (ChunkInv env p) (OneChunk env p) u log := by
  refine h.invariant (fun s hs => ?_) fun s log ev s' l _ hI hok hs => ?_
  · subst hs
    exact good_initUploads fun _ hfree hnil hnone =>
      ⟨Or.inl ⟨hfree, hnil, hnone, rfl⟩, fun _ hne => absurd hfree hne⟩
  · refine (chunkInv_kept p).step hI (fun pass he => ?_) (fun q c clk he => ?_) hs
    · subst he
      exact hok
    · subst he
      refine hI.inboundGet clk (fun slot hfree e he => ?_) fun slot _ e he => ?_
      · exact ⟨⟨trivial, trivial⟩, he.1.start hfree c (clk 0), fun hq _ => hok hq⟩
      · exact ⟨⟨trivial, trivial⟩, he.1.congr rfl rfl rfl rfl rfl rfl rfl rfl, he.2⟩

/-- All packets transmitted under one numbering are pieces of the chunk its GET asked for. -/
theorem one_chunk_per_numbering {max : Nat} {unset : Nat → UnsetSlot}
    (h : (uploadMachine env).Reach (· = initUploads max unset) (NoSecondChunk env p) u log) :
    Always (fun pre a => OneChunk env p (epoch a.1 pre) a.2) log :=
  (chunkInv_reach h).2

/-- A GET of peer 1 for chunk 0 and its first packet. -/
theorem one_chunk_per_numbering_one : ∃ log, (epoch 0 log).fresh = [1] ∧
    Always (fun pre a => OneChunk sampleEnv 1 (epoch a.1 pre) a.2) log := by
  have hstart : (uploadMachine sampleEnv).Reach (· = initUploads 1 fun _ => unsetZero)
    (NoSecondChunk sampleEnv 1) (initUploads 1 fun _ => unsetZero) [] := .start rfl
  have hholds : (uploadMachine sampleEnv).Holds (fun u ev => NoSecondChunk sampleEnv 1 u [] ev)
      [.get 1 0 fun _ => 0, .send fun _ => passAt 0] (initUploads 1 fun _ => unsetZero) := by
    refine ⟨fun _ => ⟨Int.le_refl 0, by decide, by decide⟩, fun u l hu => ⟨?_, fun _ _ _ => trivial⟩⟩
    have hlen : u.slots.length = 1 := congrArg (·.1.slots.length) (Except.ok.inj hu).symm
    obtain ⟨slot, hslot⟩ := List.length_eq_one_iff.mp hlen
    intro i j a b hi hj _ _ _
    rw [hslot] at hi hj
    rw [List.mem_singleton.mp (List.mem_of_getElem? hi),
      List.mem_singleton.mp (List.mem_of_getElem? hj)]
  have hreach := hstart.run (fun _ _ ev hev => by cases ev <;> exact hev) _ hholds rfl
  refine ⟨_, ?_, one_chunk_per_numbering hreach⟩
  rfl

/-- The sample peer with a master data file that differs from chunk to chunk. -/
def twoChunkEnv : Env :=
  { sampleEnv with masterData := ⟨2 * btChunkSize, fun k => if k < btChunkSize then 0 else 1⟩ }

theorem twoChunkEnv_held {c : Int} (h0 : 0 ≤ c) (h1 : c < 2) : ChunkHeld twoChunkEnv c := by
  refine ⟨h0, by omega, ?_⟩
  change (c.toNat + 1) * btChunkSize ≤ 2 * btChunkSize
  exact Nat.mul_le_mul_right _ (by omega)

/-- Peer 1 asks for chunk 0 and, while packet 1 is outstanding, for chunk 1; ACK 1 opens the window
to two, and packet 2 is of chunk 0 but packet 3 of chunk 1. -/
theorem second_get_interleaves : ∃ u log,
    (uploadMachine twoChunkEnv).Reach (· = initUploads 2 fun _ => unsetZero) Machine.Any u log ∧
      ¬ Always (fun pre a => OneChunk twoChunkEnv 1 (epoch a.1 pre) a.2) log := by
  refine ⟨_, _, .runAny [.get 1 0 fun _ => 0, .send fun _ => passAt 0, .get 1 1 fun _ => 0,
    .send fun _ => passAt 0, .ack 1 1 fun _ => 0, .send fun _ => passAt 0] (.start rfl) rfl, fun h => ?_⟩
  obtain ⟨c, hasked, -, -, hbytes⟩ := h [(0, .started 1 0), (0, .logWindow 1),
    (0, .transmitted 1 1 (chunkData twoChunkEnv (fun _ => 0) 0 0) false), (1, .started 1 1), (0, .logWindow 1),
    (0, .acked 1 1), (0, .logWindow 2), (0, .transmitted 1 2 (chunkData twoChunkEnv (fun _ => 0) 0 1) false)]
    (0, .transmitted 1 3 (chunkData twoChunkEnv (fun _ => 0) 1 2) false) [] rfl rfl
  have hc : c = 0 := by
    have : some ((1 : Int), (0 : Int)) = some (1, c) := hasked
    simpa using this.symm
  subst hc
  have hone := twoChunkEnv_held (show (0 : Int) ≤ 1 by decide) (by decide)
  have hzero := twoChunkEnv_held (Int.le_refl 0) (by decide)
  rw [← chunkData_eq hzero (by decide) fun _ => 0, hone.chunkData (by decide),
    hzero.chunkData (by decide), show dataSize 2 = 1483 + 1 from rfl] at hbytes
  have hfirst := congrArg (·[0]?) hbytes
  simp only [readBytes_head] at hfirst
  exact absurd hfirst (by decide)

end Bittorrent
