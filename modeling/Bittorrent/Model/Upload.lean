import Bittorrent.Lib.Machine
import Bittorrent.Lib.Table
import Bittorrent.Model.Packet

/-!
# The uploading side (`keep_track.c`, `congestion_control.c`, `send_data_packets`)

The parallel arrays indexed by upload slot are one table of `UploadSlot`s. Every function of the
source that takes a peer id works on the first slot with that id, as `get_upload_index_by_id` does.
The log records, with the slot it happened to, what a function sends or returns to its caller and
what `log_window` writes.
-/

namespace Bittorrent

/-! ## State -/

/-- `struct sent_packet`, without its link. -/
structure SentPacket where
  seq : Nat
  timestamp : Time

/-- `enum cc_policy`. -/
inductive CcPolicy
  | slowStart | congestionAvoidance
  deriving DecidableEq, Repr

/-- The entries of the congestion control arrays for one slot. -/
structure Window where
  ccPolicy : CcPolicy
  cwnds : Nat
  maxCwnds : Nat
  ackCounts : Nat

/-- The entries of the upload arrays for one slot. The queue is the list from `sent_queue_head`;
the tail is the node `sent_queue_tail` points to, the last of the queue while it is not empty and a
node kept from it afterwards. -/
structure UploadSlot where
  uploadId : Int
  uploadChunkId : Int
  uploadLastTime : Time
  sentQueueHead : List SentPacket
  sentQueueTail : Option SentPacket
  sentQueueSize : Int
  lastAck : Nat
  dupAckCount : Nat
  window : Window

/-- `RTT`, `deviation` and `RTO`. -/
structure NetworkParams where
  rtt : Int
  deviation : Int
  rto : Int

structure Uploads where
  slots : List UploadSlot
  net : NetworkParams

/-- What an upload slot has to show for a step. -/
inductive StreamAction
  /-- `start_upload` gave the slot to a peer's GET. -/
  | started (peerId chunkId : Int)
  /-- A DATA packet numbered by the slot's queue was sent. -/
  | transmitted (peerId : Int) (seq : Nat) (bytes : List UInt8) (retransmit : Bool)
  /-- `receive_ack` returned. -/
  | acked (seq count : Nat)
  /-- `window_timeout` ran. -/
  | windowTimeout
  /-- `log_window` wrote a window size. -/
  | logWindow (size : Nat)
  /-- `abort_upload` freed the slot. -/
  | aborted
  deriving DecidableEq

abbrev UploadLog := List (Nat × StreamAction)

/-- What `malloc` gives for a slot in the arrays that `init_tracker` and `init_controller` do not zero. -/
structure UnsetSlot where
  uploadChunkId : Int
  uploadLastTime : Time
  lastAck : Nat
  dupAckCount : Nat
  window : Window

/-- `init_tracker` and `init_controller`: `max` free slots. -/
def initUploads (max : Nat) (unset : Nat → UnsetSlot) : Uploads where
  slots := (List.range max).map fun i =>
    { uploadId := idNull, uploadChunkId := (unset i).uploadChunkId,
      uploadLastTime := (unset i).uploadLastTime, sentQueueHead := [], sentQueueTail := none,
      sentQueueSize := 0, lastAck := (unset i).lastAck, dupAckCount := (unset i).dupAckCount,
      window := (unset i).window }
  net := ⟨800 * 1000, 200 * 1000, 1600 * 1000⟩

/-- Cleared memory, for runs on fixed inputs. -/
def unsetZero : UnsetSlot := ⟨0, 0, 0, 0, ⟨.slowStart, 0, 0, 0⟩⟩

/-! ## Looking up a slot -/

/-- `get_upload_index_by_id`, with the row found. -/
def getUploadIndexById (id : Int) (u : Uploads) : Option (Nat × UploadSlot) :=
  Table.lookup (·.uploadId) id u.slots

def Uploads.write (u : Uploads) (index : Nat) (slot : UploadSlot) : Uploads :=
  { u with slots := u.slots.set index slot }

/-- Read the slot of a peer, or give up with a default. -/
def Uploads.read {α : Type} (u : Uploads) (peerId : Int) (default : α) (f : UploadSlot → α) : α :=
  match getUploadIndexById peerId u with
  | none => default
  | some (_, slot) => f slot

/-- Change the slot of a peer if it has one, and log under the slot's index. -/
def Uploads.change (u : Uploads) (peerId : Int) (f : UploadSlot → UploadSlot × List StreamAction) :
    Uploads × UploadLog :=
  match getUploadIndexById peerId u with
  | none => (u, [])
  | some (index, slot) => (u.write index (f slot).1, (f slot).2.map (index, ·))

/-! ## Streams (`keep_track.c`) -/

/-- What `start_upload` sets. -/
def UploadSlot.start (peerId chunkId : Int) (now : Time) (slot : UploadSlot) : UploadSlot :=
  { slot with
    uploadId := peerId, uploadLastTime := now, uploadChunkId := chunkId, sentQueueSize := 0
    lastAck := 0, dupAckCount := 0 }

/-- `start_upload`: the first free slot, `none` if there is none. -/
def startUpload (peerId chunkId : Int) (now : Time) (u : Uploads) : Option (Uploads × UploadLog) :=
  match getUploadIndexById idNull u with
  | none => none
  | some (index, slot) =>
    some (u.write index (slot.start peerId chunkId now), [(index, .started peerId chunkId)])

/-- What `abort_upload` clears. -/
def UploadSlot.abort (slot : UploadSlot) : UploadSlot :=
  { slot with uploadId := idNull, sentQueueTail := none, sentQueueHead := [] }

/-- `abort_upload`. -/
def abortUpload (peerId : Int) (u : Uploads) : Uploads × UploadLog :=
  u.change peerId fun slot => (slot.abort, [.aborted])

/-- `clean_upload_timeout`: abort the stream of the first idle slot's peer. -/
def cleanUploadTimeout (now : Time) (u : Uploads) : Uploads × UploadLog :=
  match u.slots.find? fun slot =>
    slot.uploadId ≠ idNull ∧ expired now slot.uploadLastTime (abortLimit u.net.rto) with
  | none => (u, [])
  | some slot => abortUpload slot.uploadId u

/-- Set the time stamp of the queue's head. -/
def UploadSlot.stamp (now : Time) (slot : UploadSlot) : UploadSlot :=
  match slot.sentQueueHead with
  | [] => slot
  | head :: rest => { slot with sentQueueHead := { head with timestamp := now } :: rest }

/-- The number of the queue's head if it timed out, else 0; a head that timed out is stamped anew. -/
def UploadSlot.checkTimeout (now renewed : Time) (rto : Int) (slot : UploadSlot) :
    Nat × UploadSlot :=
  match slot.sentQueueHead with
  | [] => (0, slot)
  | head :: _ => if expired now head.timestamp rto then (head.seq, slot.stamp renewed) else (0, slot)

/-- `get_timeout_seq`. -/
def getTimeoutSeq (peerId : Int) (now renewed : Time) (u : Uploads) : Nat × Uploads :=
  match getUploadIndexById peerId u with
  | none => (0, u)
  | some (index, slot) =>
    let (seq, slot) := slot.checkTimeout now renewed u.net.rto
    (seq, u.write index slot)

/-- A new node at the end of the queue; a tail kept from an emptied queue is freed. -/
def UploadSlot.enqueue (seq : Nat) (now : Time) (slot : UploadSlot) : UploadSlot :=
  let newNode : SentPacket := ⟨seq, now⟩
  { slot with
    sentQueueHead :=
      if slot.sentQueueHead.isEmpty ∨ slot.sentQueueTail.isNone then [newNode]
      else slot.sentQueueHead ++ [newNode]
    sentQueueTail := some newNode
    sentQueueSize := slot.sentQueueSize + 1 }

/-- `wait_ack`: a timeout renews the head's time stamp, a new packet is queued. -/
def waitAck (peerId : Int) (seq : Nat) (timeout : Bool) (now : Time) (u : Uploads) : Uploads :=
  (u.change peerId fun slot =>
    (if timeout then slot.stamp now else slot.enqueue seq now, [])).1

/-- `int new_RTT = milli_time() - timestamp`. -/
def newRTT (now timestamp : Time) : Int := ((now - timestamp).setWidth 32).toInt

/-- `ABS` of an `int`: the least `int` stays what it is. -/
def abs32 (x : Int) : Int := if 0 ≤ x then x else toInt32 (-x)

/-- `infer_RTT`, which exits when the deviation is the least `int`. -/
def inferRTT (smoothing : Smoothing) (now timestamp : Time) (net : NetworkParams) :
    Except Fault NetworkParams :=
  let newDev := abs32 (toInt32 (newRTT now timestamp - net.rtt))
  let rtt := smoothing.rtt net.rtt (newRTT now timestamp)
  if newDev < 0 then .error .exit
  else
    let deviation := smoothing.deviation net.deviation newDev
    .ok { rtt, deviation, rto := toInt32 (rtt + 4 * deviation) }

/-- The loop of `receive_ack`: what is left of the queue, the estimate, and the number popped. -/
def popAcked (smoothing : Smoothing) (now : Time) (seq : Nat) :
    List SentPacket → NetworkParams → Except Fault (List SentPacket × NetworkParams × Nat)
  | [], net => .ok ([], net, 0)
  | head :: rest, net =>
    if head.seq ≤ seq then
      match if head.seq = seq then inferRTT smoothing now head.timestamp net else .ok net with
      | .error f => .error f
      | .ok net =>
        match popAcked smoothing now seq rest net with
        | .error f => .error f
        | .ok (left, net, count) => .ok (left, net, count + 1)
    else .ok (head :: rest, net, 0)

/-- The duplicate count of `receive_ack`: the third duplicate sets the head's clock back by `RTO`,
and exits if the head is not the packet after the acknowledged one. -/
def fastRetransmit (slot : UploadSlot) (seq : Nat) (rto : Int) (queue : List SentPacket) :
    Except Fault (List SentPacket × Nat) :=
  if slot.lastAck = seq then
    if slot.dupAckCount + 1 ≥ 3 then
      match queue with
      | [] => .error .nullDeref
      | head :: rest =>
        if head.seq = wrap32 (seq + 1) then
          .ok ({ head with timestamp := head.timestamp - BitVec.ofInt 64 rto } :: rest, 0)
        else .error .exit
    else .ok (queue, slot.dupAckCount + 1)
  else .ok (queue, 0)

/-- `receive_ack`, with the count it returns. -/
def receiveAck (env : Env) (peerId : Int) (seq : Nat) (clk : Clock) (u : Uploads) :
    Except Fault (Nat × Uploads × UploadLog) :=
  match getUploadIndexById peerId u with
  | none => .ok (0, u, [])
  | some (index, slot) =>
    match popAcked env.smoothing (clk 0) seq slot.sentQueueHead u.net with
    | .error f => .error f
    | .ok (queue, net, count) =>
      match fastRetransmit slot seq net.rto queue with
      | .error f => .error f
      | .ok (queue, dupAckCount) =>
        .ok (count, { u with net }.write index { slot with
          dupAckCount, lastAck := seq, uploadLastTime := clk 1, sentQueueHead := queue
          sentQueueSize := slot.sentQueueSize - count }, [(index, .acked seq count)])

/-- `get_queue_size`. -/
def getQueueSize (peerId : Int) (u : Uploads) : Int := u.read peerId (-1) (·.sentQueueSize)

/-- The number of the tail node, 0 if there is none. -/
def UploadSlot.tailSeq (slot : UploadSlot) : Nat :=
  match slot.sentQueueTail with
  | none => 0
  | some tail => tail.seq

/-- `get_tail_seq_number`. -/
def getTailSeqNumber (peerId : Int) (u : Uploads) : Int := u.read peerId (-1) (·.tailSeq)

/-- `get_upload_list`. -/
def getUploadList (u : Uploads) : List Int :=
  (u.slots.filter fun s => s.uploadId ≠ idNull).map (·.uploadId)

/-- `get_upload_chunk_list`. -/
def getUploadChunkList (u : Uploads) : List Int :=
  (u.slots.filter fun s => s.uploadId ≠ idNull).map (·.uploadChunkId)

/-! ## Windows (`congestion_control.c`) -/

/-- The window change of `window_control`, and whether it is logged. -/
def Window.control (count : Nat) (w : Window) : Window × Bool :=
  match w.ccPolicy with
  | .slowStart =>
    let cwnds := wrap32 (w.cwnds + count)
    ({ w with cwnds, maxCwnds := max cwnds w.maxCwnds }, true)
  | .congestionAvoidance =>
    if w.cwnds ≤ w.maxCwnds / 2 then
      let ackCounts := wrap32 (w.ackCounts + count)
      if w.cwnds ≤ ackCounts then
        ({ w with ackCounts := ackCounts - w.cwnds, cwnds := wrap32 (w.cwnds + 1) }, true)
      else ({ w with ackCounts }, false)
    else ({ w with cwnds := wrap32 (w.cwnds + count) }, true)

def UploadSlot.setWindow (window : Window) (slot : UploadSlot) : UploadSlot := { slot with window }

/-- `window_control`. -/
def windowControl (peerId : Int) (count : Nat) (u : Uploads) : Uploads × UploadLog :=
  u.change peerId fun slot =>
    let (window, logged) := slot.window.control count
    (slot.setWindow window, if logged then [.logWindow window.cwnds] else [])

/-- The window after `window_timeout`. -/
def Window.timeout (w : Window) : Window := { w with ccPolicy := .congestionAvoidance, cwnds := 1 }

/-- `window_timeout`. -/
def windowTimeout (peerId : Int) (u : Uploads) : Uploads × UploadLog :=
  u.change peerId fun slot =>
    (slot.setWindow slot.window.timeout, [.windowTimeout, .logWindow 1])

/-- `get_cwnd_size`: the unsigned window read as an `int`. -/
def getCwndSize (peerId : Int) (u : Uploads) : Int :=
  u.read peerId (-1) fun slot => toInt32 slot.window.cwnds

/-- The window after `init_cwnd`. -/
def Window.init : Window := ⟨.slowStart, 1, 1, 0⟩

/-- `init_cwnd`. -/
def initCwnd (peerId : Int) (u : Uploads) : Uploads × UploadLog :=
  u.change peerId fun slot => (slot.setWindow .init, [.logWindow 1])

/-! ## Sending (`send_data_packets`) -/

/-- `upload_chunk_id_list[i] * BT_CHUNK_SIZE + seq_number * MAX_PAYLOAD_SIZE`, passed as an `int`. -/
def dataOffset (chunkId : Int) (seqNumber : Nat) : Int :=
  toInt32 (chunkId * btChunkSize + seqNumber * maxPayloadSize)

/-- The size of the packet at position `seqNumber` of a chunk. -/
def dataSize (seqNumber : Nat) : Nat :=
  if seqNumber = maxPacketPerChunk - 1 then
    btChunkSize - maxPayloadSize * (maxPacketPerChunk - 1)
  else maxPayloadSize

/-- What a pass of the loop of `send_data_packets` gets from outside: the clock, and what is on the stack
where `data` is. -/
structure Pass where
  clk : Clock
  stack : Memory

/-- A pass at a fixed time over a cleared stack, for runs on fixed inputs. -/
def passAt (now : Time) : Pass := ⟨fun _ => now, fun _ => 0⟩

/-- `data` after `read_file`, for the packet at position `seqNumber` of a chunk. -/
def chunkData (env : Env) (stack : Memory) (chunkId : Int) (seqNumber : Nat) : List UInt8 :=
  readBytes (readFile env.masterData stack (dataSize seqNumber) (dataOffset chunkId seqNumber)) 0
    (dataSize seqNumber)

/-- Send the packet at position `seqNumber` (it carries `seqNumber + 1`) and wait for its ACK. -/
def transmit (env : Env) (peerId chunkId : Int) (seqNumber : Nat) (timeout : Bool) (pass : Pass)
    (u : Uploads) : Uploads × UploadLog :=
  if seqNumber < maxPacketPerChunk then
    let bytes := chunkData env pass.stack chunkId seqNumber
    let (u, sent) := u.change peerId fun slot =>
      (slot, [.transmitted peerId (seqNumber + 1) bytes timeout])
    (waitAck peerId (seqNumber + 1) timeout (pass.clk 2) u, sent)
  else (u, [])

/-- One pass of the loop of `send_data_packets`: a timed out packet goes before a new one. -/
def sendDataPacket (env : Env) (peerId chunkId : Int) (pass : Pass) (u : Uploads) :
    Uploads × UploadLog :=
  let (seqNumber, u) := getTimeoutSeq peerId (pass.clk 0) (pass.clk 1) u
  if seqNumber = 0 then
    if getQueueSize peerId u < getCwndSize peerId u then
      transmit env peerId chunkId (toUnsigned (getTailSeqNumber peerId u)) false pass u
    else (u, [])
  else
    let (u, timedOut) := windowTimeout peerId u
    let (u, sent) := transmit env peerId chunkId (seqNumber - 1) true pass u
    (u, timedOut ++ sent)

def sendLoop (env : Env) (pass : Nat → Pass) : List (Int × Int) → Uploads → Uploads × UploadLog
  | [], u => (u, [])
  | (peerId, chunkId) :: rest, u =>
    let (u, sent) := sendDataPacket env peerId chunkId (pass rest.length) u
    let (u, sent') := sendLoop env pass rest u
    (u, sent ++ sent')

/-- `send_data_packets`: the ids and the chunks come from two lists, paired by position. -/
def sendDataPackets (env : Env) (pass : Nat → Pass) (u : Uploads) : Uploads × UploadLog :=
  sendLoop env pass ((getUploadList u).zip (getUploadChunkList u)) u

/-! ## Inbound packets (`process_inbound_udp`) -/

/-- The GET case, for a chunk the peer has. -/
def inboundGet (peerId chunkId : Int) (clk : Clock) (u : Uploads) : Uploads × UploadLog :=
  match startUpload peerId chunkId (clk 0) u with
  | none => (u, [])
  | some (u, started) =>
    let (u, logged) := initCwnd peerId u
    (u, started ++ logged)

/-- The ACK case. -/
def inboundAck (env : Env) (peerId : Int) (ackNumber : Nat) (clk : Clock) (u : Uploads) :
    Except Fault (Uploads × UploadLog) :=
  match receiveAck env peerId ackNumber clk u with
  | .error f => .error f
  | .ok (count, u, acked) =>
    let (u, logged) := windowControl peerId count u
    if ackNumber = maxPacketPerChunk then
      let (u, aborted) := abortUpload peerId u
      .ok (u, acked ++ logged ++ aborted)
    else .ok (u, acked ++ logged)

/-! ## The machine -/

inductive UploadEvent
  /-- A GET for a chunk in the has-chunk table, with the id `get_chunk_id` finds for it. -/
  | get (peerId chunkId : Int) (clk : Clock)
  | ack (peerId : Int) (ackNumber : Nat) (clk : Clock)
  | send (pass : Nat → Pass)
  | clean (now : Time)
  | abort (peerId : Int)

def uploadMachine (env : Env) : Machine Uploads UploadEvent (Nat × StreamAction) Fault where
  step
    | .get peerId chunkId clk, u => .ok (inboundGet peerId chunkId clk u)
    | .ack peerId ackNumber clk, u => inboundAck env peerId ackNumber clk u
    | .send pass, u => .ok (sendDataPackets env pass u)
    | .clean now, u => .ok (cleanUploadTimeout now u)
    | .abort peerId, u => .ok (abortUpload peerId u)

end Bittorrent
