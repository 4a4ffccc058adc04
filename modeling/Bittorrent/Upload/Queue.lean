import Bittorrent.Lib.Consecutive
import Bittorrent.Upload.Handlers

/-!
# The sent queue

Head, tail and size of a slot's queue agree with what was transmitted and acknowledged since the
slot's GET (`QueueInv`), over every run. It follows when `receive_ack` returns: the third duplicate
needs the packet after the acknowledged one to be outstanding (`AckSafe`).

The invariant names two numbers. The packets up to `t` were transmitted, those up to `a` acknowledged, and
the queue is `a + 1, ..., t` (`Outstanding`). A first transmission makes `t` one more and is logged with
that number (`Outstanding.enqueue`); an acknowledgement of `n` drops the numbers up to `n`, as many as it
counts, and makes `a` the larger of the two (`Outstanding.acknowledged`); retransmissions and time stamps
change no number. The tail is compared only where it is read, since an empty queue leaves it behind.
`sent_queue_consecutive` reads the claim about the log (`QueueStep`) and the one about the state off the
same induction.

For the faults, `takeAck_ok_iff` follows `receive_ack` line by line with a queue that is known to be
consecutive: the one sample is that of the packet with the acknowledged number (`popAcked_ok_iff`), and the
fast retransmit reads the head that is left. `Machine.run_ok_iff` makes of it the statement for whole runs.
-/

namespace Bittorrent

variable {env : Env} {u u' : Uploads} {p : Int} {i : Nat} {slot slot' : UploadSlot} {e : Epoch}
  {log : UploadLog} {R : Int → Int → Int → Prop}

/-! ## The invariant -/

/-- The packets up to `t` were transmitted in this upload, and those up to `a` acknowledged. -/
structure Outstanding (slot : UploadSlot) (e : Epoch) (a t : Nat) : Prop where
  asked : e.asked = some (slot.uploadId, slot.uploadChunkId)
  queue : Consecutive slot.seqs a t
  size : slot.sentQueueSize = (t : Int) - a
  tail : slot.tailSeq = t
  bound : t ≤ maxPacketPerChunk
  fresh : e.fresh = List.range' 1 t
  acked : e.acked = a

/-- A free slot has no queue; the queue of an active one is what is outstanding. -/
def QueueInv (slot : UploadSlot) (e : Epoch) : Prop :=
  (slot.uploadId = idNull ∧ slot.sentQueueHead = [] ∧ slot.sentQueueTail = none ∧ e.acked = 0) ∨
    (slot.uploadId ≠ idNull ∧ ∃ a t, Outstanding slot e a t)

/-- A first transmission carries the next number, a retransmission an earlier one, and
`receive_ack` counts no packet twice. -/
def QueueStep (e : Epoch) : StreamAction → Prop
  | .transmitted _ seq _ false => seq = e.fresh.length + 1 ∧ seq ≤ maxPacketPerChunk
  | .transmitted _ seq _ true => seq ∈ e.fresh
  | .acked _ count => e.acked + count ≤ e.fresh.length
  | _ => True

theorem QueueInv.active (h : QueueInv slot e) (hid : slot.uploadId ≠ idNull) :
    ∃ a t, Outstanding slot e a t := by
  rcases h with ⟨h, -⟩ | ⟨-, h⟩
  · exact absurd h hid
  · exact h

theorem Outstanding.fresh_length {a t : Nat} (h : Outstanding slot e a t) : e.fresh.length = t := by
  rw [h.fresh, List.length_range']

/-! ## Each slot operation keeps it -/

/-- A change that touches neither the ids, the queue's numbers nor its tail, with actions that
touch neither the transmissions nor the acknowledgements. -/
theorem QueueInv.congr {e' : Epoch} (h : QueueInv slot e) (hid : slot'.uploadId = slot.uploadId)
    (hchunk : slot'.uploadChunkId = slot.uploadChunkId) (hseqs : slot'.seqs = slot.seqs)
    (hsize : slot'.sentQueueSize = slot.sentQueueSize)
    (htail : slot'.sentQueueTail = slot.sentQueueTail) (hasked : e'.asked = e.asked)
    (hfresh : e'.fresh = e.fresh) (hacked : e'.acked = e.acked) : QueueInv slot' e' := by
  rcases h with ⟨hfree, hnil, hnone, hzero⟩ | ⟨hid', a, t, h⟩
  · refine Or.inl ⟨hid.trans hfree, ?_, htail.trans hnone, hacked.trans hzero⟩
    rw [UploadSlot.seqs, UploadSlot.seqs, hnil] at hseqs
    exact List.map_eq_nil_iff.mp hseqs
  · refine Or.inr ⟨hid ▸ hid', a, t, ?_⟩
    have htail' : slot'.tailSeq = slot.tailSeq := by rw [UploadSlot.tailSeq, UploadSlot.tailSeq, htail]
    exact ⟨by rw [hasked, hid, hchunk, h.asked], hseqs ▸ h.queue, hsize.trans h.size,
      htail'.trans h.tail, h.bound, hfresh.trans h.fresh, hacked.trans h.acked⟩

theorem stamp_tail (now : Time) : (slot.stamp now).sentQueueTail = slot.sentQueueTail := by
  unfold UploadSlot.stamp
  split <;> rfl

theorem QueueInv.stamp (h : QueueInv slot e) (now : Time) : QueueInv (slot.stamp now) e :=
  h.congr (by simp) (by simp) (by simp) (by simp) (stamp_tail now) rfl rfl rfl

theorem enqueue_seqs {seq : Nat} (now : Time)
    (h : slot.sentQueueTail = none → slot.sentQueueHead = []) :
    (slot.enqueue seq now).seqs = slot.seqs ++ [seq] := by
  simp only [UploadSlot.enqueue, UploadSlot.seqs]
  split_ifs with hnil
  · have : slot.sentQueueHead = [] := by
      rcases hnil with hnil | hnil
      · exact List.isEmpty_iff.mp hnil
      · exact h (by simpa using hnil)
    simp [this]
  · simp

theorem Outstanding.queue_of_tail {a t : Nat} (h : Outstanding slot e a t)
    (hnone : slot.sentQueueTail = none) : slot.sentQueueHead = [] := by
  have ht := h.tail
  rw [UploadSlot.tailSeq, hnone] at ht
  have := h.queue.le
  exact List.map_eq_nil_iff.mp (h.queue.eq_nil_iff.mpr (by simp only at ht; omega))

theorem Outstanding.toUnsigned_tail {a t : Nat} (h : Outstanding slot e a t) :
    toUnsigned slot.tailSeq = t := by
  have := h.bound
  rw [h.tail, toUnsigned]
  simp only [maxPacketPerChunk] at this
  omega

theorem Outstanding.enqueue {a t : Nat} (h : Outstanding slot e a t) (now : Time)
    (ht : t < maxPacketPerChunk) {e' : Epoch} (hasked : e'.asked = e.asked)
    (hfresh : e'.fresh = e.fresh ++ [t + 1]) (hacked : e'.acked = e.acked) :
    Outstanding (slot.enqueue (t + 1) now) e' a (t + 1) where
  asked := hasked.trans h.asked
  queue := by
    rw [enqueue_seqs now h.queue_of_tail]
    exact h.queue.push
  size := by
    have := h.size
    simp only [UploadSlot.enqueue]
    omega
  tail := rfl
  bound := ht
  fresh := by
    rw [hfresh, h.fresh, List.range'_concat, show 1 + 1 * t = t + 1 by omega]
  acked := hacked.trans h.acked

theorem Outstanding.acknowledged {a t seq : Nat} {acts : List StreamAction}
    (h : Outstanding slot e a t) (hack : Acknowledged slot seq slot' acts) {e' : Epoch}
    (hasked : e'.asked = e.asked) (hfresh : e'.fresh = e.fresh)
    (hacked : e'.acked = e.acked + slot.ackCount seq) :
    Outstanding slot' e' (max a (min seq t)) t := by
  have hcount := h.queue.takeWhile_length seq
  have hle := (h.queue.ack seq).le
  refine ⟨?_, ?_, ?_, ?_, h.bound, hfresh.trans h.fresh, ?_⟩
  · rw [hasked, hack.uploadId, hack.uploadChunkId, h.asked]
  · rw [hack.seqs]
    exact h.queue.ack seq
  · rw [hack.size, h.size, UploadSlot.ackCount, hcount]
    omega
  · rw [← h.tail, UploadSlot.tailSeq, UploadSlot.tailSeq, hack.tail]
  · rw [hacked, h.acked, UploadSlot.ackCount, hcount]
    omega

theorem ackCount_nil {seq : Nat} (h : slot.sentQueueHead = []) : slot.ackCount seq = 0 := by
  rw [UploadSlot.ackCount, UploadSlot.seqs, h]
  rfl

theorem QueueInv.acknowledged {seq : Nat} {acts : List StreamAction} (h : QueueInv slot e)
    (hack : Acknowledged slot seq slot' acts) {e' : Epoch} (hasked : e'.asked = e.asked)
    (hfresh : e'.fresh = e.fresh) (hacked : e'.acked = e.acked + slot.ackCount seq) :
    QueueInv slot' e' := by
  rcases h with ⟨hfree, hnil, hnone, hzero⟩ | ⟨hid, a, t, h⟩
  · refine Or.inl ⟨hack.uploadId.trans hfree, ?_, hack.tail.trans hnone, ?_⟩
    · have hseqs := hack.seqs
      rw [UploadSlot.unacked, UploadSlot.seqs, UploadSlot.seqs, hnil] at hseqs
      exact List.map_eq_nil_iff.mp hseqs
    · rw [hacked, hzero, ackCount_nil hnil]
  · exact Or.inr ⟨hack.uploadId ▸ hid, _, _, h.acknowledged hack hasked hfresh hacked⟩

theorem QueueInv.start (h : QueueInv slot e) (hfree : slot.uploadId = idNull) (c : Int)
    (now : Time) : QueueInv (slot.start p c now)
      { Epoch.empty with asked := some (p, c) } := by
  have hnil : slot.sentQueueHead = [] ∧ slot.sentQueueTail = none := by
    rcases h with ⟨-, hnil, hnone, -⟩ | ⟨hid, -⟩
    · exact ⟨hnil, hnone⟩
    · exact absurd hfree hid
  by_cases hp : p = idNull
  · exact Or.inl ⟨hp, hnil.1, hnil.2, rfl⟩
  · refine Or.inr ⟨hp, 0, 0, rfl, ?_, rfl, ?_, Nat.zero_le _, rfl, rfl⟩
    · rw [UploadSlot.seqs, UploadSlot.start, hnil.1]
      exact .nil 0
    · rw [UploadSlot.tailSeq, UploadSlot.start, hnil.2]

theorem queueInv_fresh {n : Nat} (now : Time) (hid : slot.uploadId ≠ idNull)
    (hn : n = toUnsigned slot.tailSeq) (hlt : n < maxPacketPerChunk) (bytes : List UInt8) :
    Keeps QueueInv QueueStep slot [.transmitted slot.uploadId (n + 1) bytes false]
      (slot.enqueue (n + 1) now) := by
  intro e h
  obtain ⟨a, t, h⟩ := h.active hid
  rw [h.toUnsigned_tail] at hn
  subst hn
  exact ⟨⟨⟨by rw [h.fresh_length], hlt⟩, trivial⟩,
    Or.inr ⟨hid, a, n + 1, h.enqueue now hlt rfl rfl rfl⟩⟩

theorem queueInv_kept : Kept env QueueInv QueueStep R where
  stamp slot now e h := ⟨trivial, h.stamp now⟩
  timeout slot e h :=
    ⟨⟨trivial, trivial, trivial⟩, h.congr rfl rfl rfl rfl rfl rfl rfl rfl⟩
  fresh slot c n stack now hid _ _ hn hlt := queueInv_fresh now hid hn hlt _
  again slot head rest c stack hid _ hhead hseq hlt e h := by
    obtain ⟨a, t, hout⟩ := h.active hid
    have hcons := hout.queue
    rw [UploadSlot.seqs, hhead, List.map_cons] at hcons
    obtain ⟨hs, hat⟩ := hcons.head
    refine ⟨⟨?_, trivial⟩, h⟩
    simp only [QueueStep, hout.fresh, List.mem_range'_1]
    omega
  ack slot slot' seq clk net net' acts htake e h := by
    have hack := takeAck_ok htake
    have hacts := hack.acts
    have hstep : QueueStep e (.acked seq (slot.ackCount seq)) := by
      rcases h with ⟨-, hnil, -, hzero⟩ | ⟨-, a, t, h⟩
      · simp only [QueueStep, hzero, ackCount_nil hnil]
        exact Nat.zero_le _
      · have hcount := h.queue.takeWhile_length seq
        have hle := (h.queue.ack seq).le
        simp only [QueueStep, h.fresh_length, h.acked, UploadSlot.ackCount, hcount]
        omega
    subst hacts
    split
    · exact ⟨⟨hstep, trivial, trivial⟩, h.acknowledged hack rfl rfl rfl⟩
    · exact ⟨⟨hstep, trivial⟩, h.acknowledged hack rfl rfl rfl⟩
  abort slot e h := ⟨⟨trivial, trivial⟩, Or.inl ⟨rfl, rfl, rfl, rfl⟩⟩

/-! ## Runs -/

theorem pairs_any (u : Uploads) : Pairs (fun _ _ _ => True) u := fun _ _ _ _ _ _ _ _ => trivial

theorem queueInv_init (max : Nat) (unset : Nat → UnsetSlot) :
    Good QueueInv QueueStep (initUploads max unset) [] :=
  good_initUploads fun _ hfree hnil hnone => Or.inl ⟨hfree, hnil, hnone, rfl⟩

theorem queueInv_step {ev : UploadEvent} {l : UploadLog} (h : Good QueueInv QueueStep u log)
    (hs : (uploadMachine env).step ev u = .ok (u', l)) : Good QueueInv QueueStep u' (log ++ l) := by
  refine (queueInv_kept (R := fun _ _ _ => True)).step h (fun _ _ => pairs_any u)
    (fun p c clk _ => ?_) hs
  refine h.inboundGet clk (fun slot hfree e he => ?_) fun slot _ e he => ?_
  · exact ⟨⟨trivial, trivial⟩, he.start hfree c (clk 0)⟩
  · exact ⟨⟨trivial, trivial⟩, he.congr rfl rfl rfl rfl rfl rfl rfl rfl⟩

/-- In every run every slot's queue agrees with the slot's history. -/
theorem queueInv_reach {max : Nat} {unset : Nat → UnsetSlot}
    {Ok : Uploads → UploadLog → UploadEvent → Prop}
    (h : (uploadMachine env).Reach (· = initUploads max unset) Ok u log) :
    Good QueueInv QueueStep u log := by
  refine h.invariant (fun s hs => ?_) fun s log ev s' l _ hI _ hs => queueInv_step hI hs
  subst hs
  exact queueInv_init max unset

/-- The queue of every active slot holds `a + 1, ..., t`; `t` of at most 354 packets of the upload
were transmitted, in order and once each, and `a` were counted by `receive_ack`. -/
def QueuesConsecutive (u : Uploads) (log : UploadLog) : Prop :=
  ∀ i slot, u.slots[i]? = some slot → slot.uploadId ≠ idNull → ∃ a t : Nat,
    Consecutive slot.seqs a t ∧ slot.sentQueueSize = slot.seqs.length ∧
      slot.seqs.length = t - a ∧ getTailSeqNumber slot.uploadId u = t ∧
      t ≤ maxPacketPerChunk ∧ (epoch i log).fresh = List.range' 1 t ∧ (epoch i log).acked = a

/-- The sent queue of every active upload is the consecutive run of its outstanding packets. -/
theorem sent_queue_consecutive {max : Nat} {unset : Nat → UnsetSlot}
    (h : (uploadMachine env).Reach (· = initUploads max unset) Machine.Any u log)
    (hone : Table.Distinct (·.uploadId) idNull u.slots) :
    QueuesConsecutive u log ∧ Always (fun pre a => QueueStep (epoch a.1 pre) a.2) log := by
  obtain ⟨hslots, hlog⟩ := queueInv_reach h
  refine ⟨fun i slot hi hid => ?_, hlog⟩
  obtain ⟨a, t, hout⟩ := (hslots i slot hi).active hid
  have hlen := hout.queue.length
  have hle := hout.queue.le
  have hfind : getUploadIndexById slot.uploadId u = some (i, slot) := hone.lookup_eq hi hid
  refine ⟨a, t, hout.queue, ?_, hlen, ?_, hout.bound, hout.fresh, hout.acked⟩
  · rw [hout.size, hlen]
    omega
  · rw [getTailSeqNumber, read_eq hfind, hout.tail]

/-- A GET of peer 1, a packet, an acknowledgement that empties the queue, and the next packet. -/
theorem sent_queue_consecutive_two : ∃ u log, getTailSeqNumber 1 u = 2 ∧
    QueuesConsecutive u log ∧ Always (fun pre a => QueueStep (epoch a.1 pre) a.2) log := by
  have hstart : (uploadMachine sampleEnv).Reach (· = initUploads 1 fun _ => unsetZero) Machine.Any
    (initUploads 1 fun _ => unsetZero) [] := .start rfl
  have hreach := hstart.runAny
    [.get 1 0 fun _ => 0, .send fun _ => passAt 0, .ack 1 1 fun _ => 0, .send fun _ => passAt 0] rfl
  refine ⟨_, _, ?_, sent_queue_consecutive hreach (Table.distinct_singleton _ _ _)⟩
  rfl

/-! ## When `receive_ack` returns -/

/-- The round trip of a packet is not `2 ^ 31` off the estimate, where `infer_RTT` exits. -/
def Inferable (net : NetworkParams) (now timestamp : Time) : Prop :=
  toInt32 (newRTT now timestamp - net.rtt) ≠ -2 ^ 31

instance {net : NetworkParams} {now timestamp : Time} : Decidable (Inferable net now timestamp) :=
  inferInstanceAs (Decidable (_ ≠ _))

theorem abs32_neg_iff (x : Int) : abs32 (toInt32 x) < 0 ↔ toInt32 x = -2 ^ 31 := by
  have hlo : -2 ^ 31 ≤ toInt32 x := Int.le_bmod (by decide)
  have hhi : toInt32 x < 2 ^ 31 := Int.bmod_lt (by decide)
  generalize toInt32 x = y at hlo hhi
  rw [abs32]
  split_ifs with hy
  · omega
  · by_cases hmin : y = -2 ^ 31
    · subst hmin
      exact iff_of_true (by decide) rfl
    · rw [toInt32_eq (by omega) (by omega)]
      omega

theorem inferRTT_ok_iff {sm : Smoothing} {now timestamp : Time} {net : NetworkParams} :
    (∃ net', inferRTT sm now timestamp net = .ok net') ↔ Inferable net now timestamp := by
  rw [Inferable, ne_eq, ← abs32_neg_iff]
  simp only [inferRTT]
  split_ifs with hneg
  · simp [hneg]
  · exact iff_of_true ⟨_, rfl⟩ hneg

theorem popAcked_above {sm : Smoothing} {now : Time} {seq : Nat} {queue : List SentPacket}
    (h : ∀ packet ∈ queue, seq < packet.seq) (net : NetworkParams) :
    popAcked sm now seq queue net = .ok (queue, net, 0) := by
  cases queue with
  | nil => rfl
  | cons head rest =>
    have hhead := h head List.mem_cons_self
    rw [popAcked, if_neg (by omega)]

theorem popAcked_ok_iff {sm : Smoothing} {now : Time} {seq : Nat} {queue : List SentPacket}
    {net : NetworkParams} (h : (queue.map (·.seq)).Pairwise (· < ·)) :
    (∃ r, popAcked sm now seq queue net = .ok r) ↔
      ∀ head ∈ queue, head.seq = seq → Inferable net now head.timestamp := by
  induction queue with
  | nil => simp [popAcked]
  | cons head rest ih =>
    obtain ⟨hlt, hrest⟩ := List.pairwise_cons.mp h
    have hother : ∀ packet ∈ rest, head.seq < packet.seq := fun packet hmem =>
      hlt _ (List.mem_map_of_mem hmem)
    rw [popAcked]
    rcases Nat.lt_trichotomy head.seq seq with hseq | rfl | hseq
    · -- popped without a sample
      have hhead : ∀ packet ∈ head :: rest, packet.seq = seq → packet ∈ rest := by
        intro packet hmem he
        rcases List.mem_cons.mp hmem with rfl | hmem
        · omega
        · exact hmem
      rw [if_pos (by omega), if_neg (by omega)]
      refine Iff.trans ?_ ((ih hrest).trans ⟨fun hall packet hmem he => hall packet (hhead packet hmem he) he,
        fun hall packet hmem => hall packet (List.mem_cons_of_mem _ hmem)⟩)
      simp only
      cases popAcked sm now seq rest net with
      | error f => simp
      | ok r => simp
    · -- the sample; what is behind has a larger number and stays
      rw [if_pos (le_refl _), if_pos rfl]
      have hall : (∀ packet ∈ head :: rest, packet.seq = head.seq → Inferable net now packet.timestamp) ↔
          Inferable net now head.timestamp := by
        refine ⟨fun hall => hall head List.mem_cons_self rfl, fun hhead packet hmem he => ?_⟩
        rcases List.mem_cons.mp hmem with rfl | hmem
        · exact hhead
        · exact absurd he (hother packet hmem).ne'
      rw [hall, ← @inferRTT_ok_iff sm]
      cases inferRTT sm now head.timestamp net with
      | error f => simp
      | ok net' => simp [popAcked_above hother]
    · rw [if_neg (by omega)]
      refine iff_of_true ⟨_, rfl⟩ fun packet hmem he => ?_
      rcases List.mem_cons.mp hmem with rfl | hmem
      · omega
      · have := hother packet hmem
        omega

theorem fastRetransmit_ok_iff {seq : Nat} (rto : Int) {queue : List SentPacket} :
    (∃ r, fastRetransmit slot seq rto queue = .ok r) ↔
      (slot.lastAck = seq → 2 ≤ slot.dupAckCount →
        (queue.map (·.seq)).head? = some (wrap32 (seq + 1))) := by
  unfold fastRetransmit
  by_cases hlast : slot.lastAck = seq
  · rw [if_pos hlast]
    by_cases hdup : slot.dupAckCount + 1 ≥ 3
    · rw [if_pos hdup]
      cases queue with
      | nil => simp [hlast, show 2 ≤ slot.dupAckCount by omega]
      | cons head rest =>
        by_cases hhead : head.seq = wrap32 (seq + 1)
        · simp [hhead]
        · simp [hhead, hlast, show 2 ≤ slot.dupAckCount by omega]
    · rw [if_neg hdup]
      simp only [Except.ok.injEq, exists_eq', true_iff]
      omega
  · simp [hlast]

theorem takeAck_ok_iff_fast {sm : Smoothing} {seq : Nat} {clk : Clock} {net : NetworkParams} :
    (∃ r, slot.takeAck sm seq clk net = .ok r) ↔
      (∃ r, popAcked sm (clk 0) seq slot.sentQueueHead net = .ok r) ∧
      (slot.lastAck = seq → 2 ≤ slot.dupAckCount →
        (slot.unacked seq).head? = some (wrap32 (seq + 1))) := by
  unfold UploadSlot.takeAck
  cases hpop : popAcked sm (clk 0) seq slot.sentQueueHead net with
  | error f => simp
  | ok r =>
    obtain ⟨queue, net₁, count⟩ := r
    rw [← (popAcked_seqs hpop).1, ← fastRetransmit_ok_iff net₁.rto]
    simp only
    cases fastRetransmit slot seq net₁.rto queue with
    | error f => simp
    | ok r => simp

/-- The packet with the acknowledged number has a round trip that can be inferred, and the third
duplicate of an acknowledgement finds the packet after it still in the queue. -/
structure AckReady (net : NetworkParams) (now : Time) (slot : UploadSlot) (seq : Nat) : Prop where
  sample : ∀ head ∈ slot.sentQueueHead, head.seq = seq → Inferable net now head.timestamp
  third : slot.lastAck = seq → 2 ≤ slot.dupAckCount → seq + 1 ∈ slot.seqs

theorem QueueInv.pairwise (h : QueueInv slot e) : slot.seqs.Pairwise (· < ·) := by
  rcases h with ⟨-, hnil, -⟩ | ⟨-, a, t, h⟩
  · rw [UploadSlot.seqs, hnil]
    exact .nil
  · exact h.queue.pairwise

theorem takeAck_ok_iff (h : QueueInv slot e) (sm : Smoothing) (seq : Nat) (clk : Clock)
    (net : NetworkParams) :
    (∃ r, slot.takeAck sm seq clk net = .ok r) ↔ AckReady net (clk 0) slot seq := by
  rw [takeAck_ok_iff_fast, popAcked_ok_iff h.pairwise]
  suffices hhead : (slot.unacked seq).head? = some (wrap32 (seq + 1)) ↔ seq + 1 ∈ slot.seqs by
    rw [hhead]
    exact ⟨fun hr => ⟨hr.1, hr.2⟩, fun hr => ⟨hr.sample, hr.third⟩⟩
  rcases h with ⟨-, hnil, -⟩ | ⟨-, a, t, h⟩
  · simp [UploadSlot.unacked, UploadSlot.seqs, hnil]
  · have hbound := h.bound
    have hle := h.queue.le
    rw [UploadSlot.unacked, (h.queue.ack seq).head?_eq, h.queue.mem_iff]
    simp only [maxPacketPerChunk, wrap32] at *
    split_ifs with hlt
    · simp only [Option.some.injEq]
      omega
    · simp only [false_iff]
      omega

/-- What an event must meet for its step to return: an ACK finds the peer's slot ready for it. -/
def AckSafe (u : Uploads) : UploadEvent → Prop
  | .ack peerId seq clk =>
    ∀ i slot, getUploadIndexById peerId u = some (i, slot) → AckReady u.net (clk 0) slot seq
  | _ => True

theorem step_ok_iff (h : Good QueueInv QueueStep u log) (ev : UploadEvent) :
    (∃ r, (uploadMachine env).step ev u = .ok r) ↔ AckSafe u ev := by
  cases ev with
  | ack p seq clk =>
    simp only [uploadMachine, AckSafe]
    cases hl : getUploadIndexById p u with
    | none => simp [inboundAck_none hl]
    | some r =>
      obtain ⟨i, slot⟩ := r
      have htake := takeAck_ok_iff (h.1 i slot (getUploadIndexById_get hl))
        env.smoothing seq clk u.net
      have hsafe : (∀ j s, some (i, slot) = some (j, s) → AckReady u.net (clk 0) s seq) ↔
          AckReady u.net (clk 0) slot seq :=
        ⟨fun hall => hall i slot rfl, fun hready j s hj => by cases hj; exact hready⟩
      rw [inboundAck_eq hl, hsafe, ← htake]
      cases slot.takeAck env.smoothing seq clk u.net with
      | error f => simp
      | ok r =>
        simp only [Except.ok.injEq, exists_eq', iff_true]
        split_ifs
        · exact ⟨_, rfl⟩
        · exact ⟨_, rfl⟩
  | get => simp [uploadMachine, AckSafe]
  | send => simp [uploadMachine, AckSafe]
  | clean => simp [uploadMachine, AckSafe]
  | abort => simp [uploadMachine, AckSafe]

/-- From every reachable state, every sequence of events is read without a fault exactly when every
ACK finds its slot ready for it. -/
theorem acks_return_iff {max : Nat} {unset : Nat → UnsetSlot}
    (h : (uploadMachine env).Reach (· = initUploads max unset) Machine.Any u log)
    (events : List UploadEvent) :
    (∃ r, (uploadMachine env).run events u = .ok r) ↔
      (uploadMachine env).Holds AckSafe events u := by
  refine Machine.run_ok_iff (I := fun u => ∃ log, Good QueueInv QueueStep u log) ?_ ?_ events u
    ⟨log, queueInv_reach h⟩
  · rintro u ev u' l ⟨log, hgood⟩ hs
    exact ⟨log ++ l, queueInv_step hgood hs⟩
  · rintro u ev ⟨log, hgood⟩
    exact step_ok_iff hgood ev

/-- An upload to peer 1 whose first packet is outstanding reads ACK 1. -/
theorem acks_return_iff_one : ∃ u : Uploads, getQueueSize 1 u = 1 ∧
    ((∃ r, (uploadMachine sampleEnv).run [.ack 1 1 fun _ => 0] u = .ok r) ↔
      (uploadMachine sampleEnv).Holds AckSafe [.ack 1 1 fun _ => 0] u) := by
  have hstart : (uploadMachine sampleEnv).Reach (· = initUploads 1 fun _ => unsetZero) Machine.Any
    (initUploads 1 fun _ => unsetZero) [] := .start rfl
  have hreach := hstart.runAny [.get 1 0 fun _ => 0, .send fun _ => passAt 0] rfl
  refine ⟨_, ?_, acks_return_iff hreach _⟩
  rfl

/-- ACK 1000 for the fourth time finds the queue empty and follows its NULL head; ACK 1 for the
third time after ACK 3 finds packet 4 at the head and reaches `exit`. Every ACK before is followed
by `send_data_packets`, as in the main loop. -/
theorem stale_acks_fault :
    (∃ u log, (uploadMachine sampleEnv).Reach (· = initUploads 1 fun _ => unsetZero) Machine.Any u log ∧
      getUploadList u = [1] ∧
      (uploadMachine sampleEnv).run [.ack 1 1000 fun _ => 0] u = .error .nullDeref) ∧
    ∃ u log, (uploadMachine sampleEnv).Reach (· = initUploads 1 fun _ => unsetZero) Machine.Any u log ∧
      getUploadList u = [1] ∧
      (uploadMachine sampleEnv).run [.ack 1 1 fun _ => 0] u = .error .exit := by
  constructor
  · refine ⟨_, _, .runAny [.get 1 0 fun _ => 0, .send fun _ => passAt 0, .ack 1 1000 fun _ => 0,
      .send fun _ => passAt 0, .ack 1 1000 fun _ => 0, .send fun _ => passAt 0, .ack 1 1000 fun _ => 0,
      .send fun _ => passAt 0] (.start rfl) rfl, ?_, ?_⟩
    · rfl
    · rfl
  · refine ⟨_, _, .runAny [.get 1 0 fun _ => 0, .send fun _ => passAt 0, .ack 1 1 fun _ => 0,
      .send fun _ => passAt 0, .ack 1 2 fun _ => 0, .send fun _ => passAt 0, .ack 1 3 fun _ => 0,
      .send fun _ => passAt 0, .ack 1 1 fun _ => 0, .send fun _ => passAt 0, .ack 1 1 fun _ => 0,
      .send fun _ => passAt 0, .ack 1 1 fun _ => 0, .send fun _ => passAt 0] (.start rfl) rfl, ?_, ?_⟩
    · rfl
    · rfl

end Bittorrent
