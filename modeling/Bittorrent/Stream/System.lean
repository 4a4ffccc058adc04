import Bittorrent.Download.Tracker
import Bittorrent.Model.Peer
import Bittorrent.Stream.Wire
import Bittorrent.Upload.Queue

/-!
# A stream between two peers

A sender and a receiver, both running this code, and a channel that may lose, duplicate and reorder
what they send: any packet sent so far may be delivered, any number of times, over whatever the
receiving buffer held before. What is in flight is read off the log. A run starts when `start_upload`
has taken a slot for the receiver and `start_download` one for the sender, with no packet under way.

Nothing about the channel is a state: `DataSent` and `AckSent` are properties of the log, so a packet that
was sent once may be delivered at any later time, again and again, and losing it is not to deliver it. They
only grow with the log (`DataSent.mono`, `Taken.mono`), which is what makes an invariant about packets in
flight easy to keep. The two ends are the machines of the two sides as they stand, so what holds in all of
their runs holds at the ends of a stream (`cleanUploads_reach`, `cleanDownloads_reach`).
-/

namespace Bittorrent

/-! ## The two ends -/

/-- The two peers, the ids they have for each other, and the address the receiver sees the sender's
packets come from. -/
structure Link where
  sender : Env
  receiver : Env
  receiverId : Int
  senderId : Int
  src : Addr

structure System where
  sender : Uploads
  receiver : Downloads

/-- What the sender did at an upload slot, and the receiver on its downloading side. -/
abbrev SystemLog := PeerLog

inductive StreamEvent
  /-- The sender runs `send_data_packets`. -/
  | send (pass : Nat → Pass)
  /-- An ACK packet is delivered to the sender. -/
  | ack (stale : Memory) (ackNumber : Nat) (clk : Clock)
  /-- A DATA packet is delivered to the receiver. -/
  | data (stale : Memory) (seq : Nat) (bytes : List UInt8) (clk : Clock)

def streamMachine (k : Link) :
    Machine System StreamEvent ((Nat × StreamAction) ⊕ DownloadAction) Fault where
  step
    | .send clk, s =>
      let (u, l) := sendDataPackets k.sender clk s.sender
      .ok ({ s with sender := u }, l.map .inl)
    | .ack stale n clk, s =>
      let packet := receiveInto stale (Message.ack n).datagram
      match inboundAck k.sender k.receiverId packet.ackNumber clk s.sender with
      | .error f => .error f
      | .ok (u, l) => .ok ({ s with sender := u }, l.map .inl)
    | .data stale seq bytes clk, s =>
      let packet := receiveInto stale (Message.data seq bytes).datagram
      match inboundData k.receiver k.src k.senderId packet clk s.receiver with
      | .error f => .error f
      | .ok (d, l) => .ok ({ s with receiver := d }, l.map .inr)

/-! ## Packets in flight -/

variable {k : Link} {s s' : System} {log l : SystemLog} {u : Uploads} {d : Downloads}
  {up : UploadLog} {down : DownloadLog} {seq n : Nat} {bytes : List UInt8}

/-- The sender has sent a DATA packet to the receiver. -/
def DataSent (k : Link) (log : SystemLog) (seq : Nat) (bytes : List UInt8) : Prop :=
  ∃ index retransmit, (index, .transmitted k.receiverId seq bytes retransmit) ∈ log.uploads

/-- The receiver has sent an ACK to the sender. -/
def AckSent (k : Link) (log : SystemLog) (n : Nat) : Prop :=
  .sent (some k.src) (.ack n) ∈ log.downloads

/-- The expected-packet branch ran for a number of the sender. -/
def Taken (k : Link) (log : SystemLog) (seq : Nat) : Prop :=
  ∃ index entry size, .accepted index k.senderId seq entry size ∈ log.downloads

/-- The receiver has opened another stream to the sender, for its next chunk. -/
def SecondStream (k : Link) (log : SystemLog) : Prop :=
  ∃ index entry, .handed index k.senderId entry ∈ log.downloads

/-- The channel delivers what was sent, to the receiver while it has no other stream to the sender. -/
def Delivered (k : Link) (_ : System) (log : SystemLog) : StreamEvent → Prop
  | .send _ => True
  | .ack _ n _ => AckSent k log n
  | .data _ seq bytes _ => DataSent k log seq bytes ∧ ¬ SecondStream k log

theorem DataSent.mono (h : DataSent k log seq bytes) : DataSent k (log ++ l) seq bytes := by
  obtain ⟨i, r, h⟩ := h
  exact ⟨i, r, by rw [uploads_append]; exact List.mem_append_left _ h⟩

theorem Taken.mono (h : Taken k log seq) : Taken k (log ++ l) seq := by
  obtain ⟨i, e, size, h⟩ := h
  exact ⟨i, e, size, by rw [downloads_append]; exact List.mem_append_left _ h⟩

/-! ## The start of a stream -/

/-- No free upload slot has a queue. -/
def CleanUploads (u : Uploads) : Prop :=
  ∀ (i : Nat) (slot : UploadSlot), u.slots[i]? = some slot → slot.uploadId = idNull →
    slot.sentQueueHead = []

/-- No free download slot has a record, and no unfinished entry has received anything. -/
structure CleanDownloads (d : Downloads) : Prop where
  slots : Slots (fun slot => slot.downloadId = idNull → slot.lastAckedRecord = []) d
  entries : Entries (fun _ chunk => chunk.state = .notStarted →
    chunk.data = none ∧ chunk.receivedByteNumber = 0) d

/-- The sender just after the GET of a receiver that had no upload. -/
def UploadOpened (k : Link) (chunkId : Int) (u : Uploads) : Prop :=
  ∃ u₀ clk, CleanUploads u₀ ∧ getUploadIndexById k.receiverId u₀ = none ∧
    (inboundGet k.receiverId chunkId clk u₀).1 = u

/-- The receiver just after it picked an entry and `start_download` took a slot for a sender that had
no download. -/
def DownloadOpened (k : Link) (request : Request) (entry : Nat) (chunk : Chunk) (d : Downloads) :
    Prop :=
  ∃ d₀ clk index, CleanDownloads d₀ ∧ k.senderId ≠ idNull ∧
    getDownloadIndexById k.senderId d₀ = none ∧ Unfinished d₀ request entry chunk ∧
    startDownload k.senderId chunk.hash clk (d₀.writeChunk entry { chunk with state := .receiving }) =
      some (index, d)

/-- A stream of the chunk with this id is open at both ends. -/
def Opened (k : Link) (chunkId : Int) (s : System) : Prop :=
  UploadOpened k chunkId s.sender ∧
    ∃ request entry chunk, DownloadOpened k request entry chunk s.receiver

/-- The uploading side of a peer is clean in every run. -/
theorem cleanUploads_reach (env : Env) {max : Nat} {unset : Nat → UnsetSlot}
    (h : (uploadMachine env).Reach (· = initUploads max unset) Machine.Any u up) :
    CleanUploads u := by
  intro i slot hi hfree
  rcases (queueInv_reach h).1 i slot hi with ⟨-, hnil, -⟩ | ⟨hne, -⟩
  · exact hnil
  · exact absurd hfree hne

/-- So is the downloading side. -/
theorem cleanDownloads_reach (env : Env) {max : Nat} {has : List Chunk} {files : String → Memory}
    (h : (downloadMachine env).Reach (· = initDownloads max has files) ValidPeers d down) :
    CleanDownloads d := by
  refine ⟨(trackerState_reach h).freeEmpty, (downloadInv_reach h).buffered.mono fun _ chunk hb hs => ?_⟩
  have hnone := hb.idle (by rw [hs]; decide)
  exact ⟨hnone, hb.empty hnone⟩

/-! ## A stream for runs on fixed inputs -/

/-- Two peers that know each other as peer 1. -/
def sampleLink : Link := ⟨sampleEnv, sampleEnv, 1, 1, sampleSrc⟩

/-- One entry, picked. -/
def sampleEntry : Chunk := { requestEntry (0, sampleHash 0) with state := .receiving }

def sampleReceiver (entry : Chunk) (slot : DownloadSlot) : Downloads where
  slots := [slot]
  currentRequest := some ⟨some "out", [entry]⟩
  connections := []
  hasChunkTable := []
  files := fun _ _ => 0

/-- Peer 1 has asked for chunk 0. -/
def sampleSystem : System where
  sender := (inboundGet 1 0 (fun _ => 0) (initUploads 1 fun _ => unsetZero)).1
  receiver := sampleReceiver sampleEntry ⟨1, some (sampleHash 0), [⟨0, 1⟩], 0⟩

theorem sampleSystem_upload : UploadOpened sampleLink 0 sampleSystem.sender :=
  ⟨initUploads 1 fun _ => unsetZero, fun _ => 0, cleanUploads_reach sampleEnv (.start rfl), rfl, rfl⟩

theorem sampleSystem_download : DownloadOpened sampleLink
    ⟨some "out", [requestEntry (0, sampleHash 0)]⟩ 0 (requestEntry (0, sampleHash 0))
      sampleSystem.receiver := by
  refine ⟨sampleReceiver (requestEntry (0, sampleHash 0)) ⟨idNull, none, [], 0⟩, fun _ => 0, 0, ?_,
    by decide, rfl, ⟨rfl, rfl, rfl⟩, rfl⟩
  refine ⟨fun i slot hi _ => ?_, fun request e chunk hrequest hget _ => ?_⟩
  · rw [List.mem_singleton.mp (List.mem_of_getElem? hi)]
  · cases hrequest
    rw [List.mem_singleton.mp (List.mem_of_getElem? hget)]
    exact ⟨rfl, rfl⟩

end Bittorrent
