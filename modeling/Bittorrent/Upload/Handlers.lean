import Bittorrent.Upload.Streams

/-!
# The handlers, slot by slot

Every handler but the GET changes one slot at a time: `UploadSlot.sendPass` is one pass of
`send_data_packets` seen from its slot and `UploadSlot.takeAck` is `receive_ack` followed by
`window_control`. `Kept` lists what a property must be kept by, and `Kept.step` carries it over a
step of the machine.

The lifting goes from the inside out. `UploadSlot.transmit`, `UploadSlot.sendPass` and `UploadSlot.takeAck`
are the bodies of the source's functions with the array access taken off, and `transmit_eq`,
`sendDataPacket_eq` and `inboundAck_eq` say that the functions are these bodies at the slot they look up.
`Kept.pass` then puts a pass together from stamps, timeouts, first transmissions and retransmissions,
`Kept.loop` goes through the list of peers and chunks, in which a slot may come up more than once and with
the chunk of another, `Kept.send` adds what `send_data_packets` does around the loop, and `Kept.step` the
other events. What `receive_ack` leaves is said once, for every property (`Acknowledged`): the numbers up to
the acknowledged one are gone from the queue, the count is how many there were, and only then does the
window move.
-/

namespace Bittorrent

variable {env : Env} {u u' : Uploads} {p c : Int} {i : Nat} {slot slot' : UploadSlot}
  {log l : UploadLog}

/-! ## One pass of `send_data_packets` -/

theorem dataSize_le (n : Nat) : dataSize n ≤ maxPayloadSize := by
  rw [dataSize]
  split_ifs
  · decide
  · exact Nat.le_refl _

/-- `transmit`, on the slot. -/
def UploadSlot.transmit (env : Env) (peerId chunkId : Int) (n : Nat) (timeout : Bool) (pass : Pass)
    (slot : UploadSlot) : UploadSlot × List StreamAction :=
  if n < maxPacketPerChunk then
    (if timeout then slot.stamp (pass.clk 2) else slot.enqueue (n + 1) (pass.clk 2),
      [.transmitted peerId (n + 1) (chunkData env pass.stack chunkId n) timeout])
  else (slot, [])

/-- `sendDataPacket`, on the slot. -/
def UploadSlot.sendPass (env : Env) (peerId chunkId : Int) (pass : Pass) (rto : Int)
    (slot : UploadSlot) : UploadSlot × List StreamAction :=
  let (seq, slot) := slot.checkTimeout (pass.clk 0) (pass.clk 1) rto
  if seq = 0 then
    if slot.sentQueueSize < toInt32 slot.window.cwnds then
      slot.transmit env peerId chunkId (toUnsigned slot.tailSeq) false pass
    else (slot, [])
  else
    let (slot, sent) := (slot.setWindow slot.window.timeout).transmit env peerId chunkId
      (seq - 1) true pass
    (slot, [.windowTimeout, .logWindow 1] ++ sent)

/-- The sequence numbers waiting for their ACK. -/
def UploadSlot.seqs (slot : UploadSlot) : List Nat := slot.sentQueueHead.map (·.seq)

@[simp] theorem stamp_uploadId (now : Time) : (slot.stamp now).uploadId = slot.uploadId := by
  unfold UploadSlot.stamp
  split <;> rfl

@[simp] theorem stamp_uploadChunkId (now : Time) :
    (slot.stamp now).uploadChunkId = slot.uploadChunkId := by
  unfold UploadSlot.stamp
  split <;> rfl

@[simp] theorem stamp_window (now : Time) : (slot.stamp now).window = slot.window := by
  unfold UploadSlot.stamp
  split <;> rfl

@[simp] theorem stamp_sentQueueSize (now : Time) :
    (slot.stamp now).sentQueueSize = slot.sentQueueSize := by
  unfold UploadSlot.stamp
  split <;> rfl

@[simp] theorem stamp_tailSeq (now : Time) : (slot.stamp now).tailSeq = slot.tailSeq := by
  unfold UploadSlot.stamp
  split <;> rfl

@[simp] theorem stamp_seqs (now : Time) : (slot.stamp now).seqs = slot.seqs := by
  unfold UploadSlot.stamp
  split
  · rfl
  · rename_i head rest h
    rw [UploadSlot.seqs, UploadSlot.seqs, h]
    rfl

@[simp] theorem enqueue_uploadId (seq : Nat) (now : Time) :
    (slot.enqueue seq now).uploadId = slot.uploadId := rfl

@[simp] theorem enqueue_uploadChunkId (seq : Nat) (now : Time) :
    (slot.enqueue seq now).uploadChunkId = slot.uploadChunkId := rfl

theorem checkTimeout_cases (now renewed : Time) (rto : Int) (slot : UploadSlot) :
    slot.checkTimeout now renewed rto = (0, slot) ∨
      ∃ head rest, slot.sentQueueHead = head :: rest ∧
        slot.checkTimeout now renewed rto = (head.seq, slot.stamp renewed) := by
  unfold UploadSlot.checkTimeout
  split
  · exact Or.inl rfl
  · rename_i head rest h
    split
    · exact Or.inr ⟨head, rest, h, rfl⟩
    · exact Or.inl rfl

theorem checkTimeout_frame {α : Type} {f : UploadSlot → α}
    (hstamp : ∀ slot now, f (slot.stamp now) = f slot) (now renewed : Time) (rto : Int)
    (slot : UploadSlot) : f (slot.checkTimeout now renewed rto).2 = f slot := by
  rcases checkTimeout_cases now renewed rto slot with h | ⟨_, _, -, h⟩
  · rw [h]
  · rw [h]
    exact hstamp slot renewed

/-- What is read of a slot and changed neither by time stamps, windows nor queued packets is the same
after a pass. -/
theorem sendPass_frame {α : Type} {f : UploadSlot → α} (hstamp : ∀ slot now, f (slot.stamp now) = f slot)
    (hwindow : ∀ (slot : UploadSlot) w, f (slot.setWindow w) = f slot)
    (henqueue : ∀ (slot : UploadSlot) n now, f (slot.enqueue n now) = f slot) (p c : Int) (pass : Pass)
    (rto : Int) (slot : UploadSlot) : f (slot.sendPass env p c pass rto).1 = f slot := by
  have htransmit : ∀ (slot : UploadSlot) n timeout,
      f (slot.transmit env p c n timeout pass).1 = f slot := by
    intro slot n timeout
    unfold UploadSlot.transmit
    split_ifs
    · exact hstamp slot (pass.clk 2)
    · exact henqueue slot (n + 1) (pass.clk 2)
    · rfl
  have hcheck := checkTimeout_frame hstamp (pass.clk 0) (pass.clk 1) rto slot
  simp only [UploadSlot.sendPass]
  split_ifs
  · exact (htransmit _ _ _).trans hcheck
  · exact hcheck
  · exact (htransmit _ _ _).trans ((hwindow _ _).trans hcheck)

theorem sendPass_ids (env : Env) (p c : Int) (pass : Pass) (rto : Int) (slot : UploadSlot) :
    (slot.sendPass env p c pass rto).1.uploadId = slot.uploadId ∧
      (slot.sendPass env p c pass rto).1.uploadChunkId = slot.uploadChunkId :=
  ⟨sendPass_frame (fun _ => stamp_uploadId) (fun _ _ => rfl) (fun _ _ _ => rfl) p c pass rto slot,
    sendPass_frame (fun _ => stamp_uploadChunkId) (fun _ _ => rfl) (fun _ _ _ => rfl) p c pass rto slot⟩

theorem transmit_eq (h : getUploadIndexById p u = some (i, slot)) (n : Nat) (timeout : Bool)
    (pass : Pass) : transmit env p c n timeout pass u =
      (u.write i (slot.transmit env p c n timeout pass).1,
        (slot.transmit env p c n timeout pass).2.map (i, ·)) := by
  have hself := write_self (getUploadIndexById_get h)
  unfold transmit UploadSlot.transmit
  by_cases hn : n < maxPacketPerChunk
  · rw [if_pos hn, if_pos hn]
    simp only [change_eq h, hself, waitAck]
  · rw [if_neg hn, if_neg hn, hself]
    rfl

theorem sendDataPacket_eq (h : getUploadIndexById p u = some (i, slot)) (pass : Pass) :
    sendDataPacket env p c pass u = (u.write i (slot.sendPass env p c pass u.net.rto).1,
      (slot.sendPass env p c pass u.net.rto).2.map (i, ·)) := by
  have hid := getUploadIndexById_id h
  simp only [sendDataPacket, UploadSlot.sendPass, getTimeoutSeq, h]
  generalize hs : slot.checkTimeout (pass.clk 0) (pass.clk 1) u.net.rto = r
  obtain ⟨seq, slot₁⟩ := r
  have hid₁ : slot₁.uploadId = p := by
    have := checkTimeout_frame (fun _ => stamp_uploadId) (pass.clk 0) (pass.clk 1) u.net.rto slot
    rw [hs] at this
    exact this.trans hid
  have h₁ := getUploadIndexById_write h hid₁
  have h₂ : getUploadIndexById p (u.write i (slot₁.setWindow slot₁.window.timeout)) = some (i, _) :=
    getUploadIndexById_write h hid₁
  simp only [getQueueSize, getCwndSize, getTailSeqNumber, read_eq h₁, windowTimeout, change_eq h₁,
    transmit_eq h₁, transmit_eq h₂, write_write]
  split_ifs <;> rfl

theorem sendDataPacket_none (h : getUploadIndexById p u = none) (pass : Pass) :
    sendDataPacket env p c pass u = (u, []) := by
  simp [sendDataPacket, getTimeoutSeq, getQueueSize, getCwndSize, Uploads.read, h]

theorem sendLoop_frame {α : Type} {f : UploadSlot → α}
    (hpass : ∀ p c pass rto (slot : UploadSlot), f (slot.sendPass env p c pass rto).1 = f slot)
    (pass : Nat → Pass) : ∀ (pairs : List (Int × Int)) (u : Uploads),
      (sendLoop env pass pairs u).1.slots.map f = u.slots.map f := by
  intro pairs
  induction pairs with
  | nil => exact fun u => rfl
  | cons pc rest ih =>
    obtain ⟨p, c⟩ := pc
    intro u
    simp only [sendLoop, ih]
    cases hl : getUploadIndexById p u with
    | none => rw [sendDataPacket_none hl]
    | some r =>
      rw [sendDataPacket_eq hl]
      exact Table.map_set_key (getUploadIndexById_get hl) (hpass _ _ _ _ _)

/-! ## `receive_ack` and `window_control` -/

/-- `receive_ack` followed by `window_control`, on the slot. -/
def UploadSlot.takeAck (sm : Smoothing) (seq : Nat) (clk : Clock) (net : NetworkParams)
    (slot : UploadSlot) : Except Fault (UploadSlot × NetworkParams × List StreamAction) :=
  match popAcked sm (clk 0) seq slot.sentQueueHead net with
  | .error f => .error f
  | .ok (queue, net, count) =>
    match fastRetransmit slot seq net.rto queue with
    | .error f => .error f
    | .ok (queue, dupAckCount) =>
      let (window, logged) := slot.window.control count
      .ok ({ slot with
          dupAckCount, lastAck := seq, uploadLastTime := clk 1, sentQueueHead := queue
          sentQueueSize := slot.sentQueueSize - count }.setWindow window, net,
        .acked seq count :: if logged then [.logWindow window.cwnds] else [])

theorem inboundAck_eq (h : getUploadIndexById p u = some (i, slot)) (seq : Nat) (clk : Clock) :
    inboundAck env p seq clk u =
      match slot.takeAck env.smoothing seq clk u.net with
      | .error f => .error f
      | .ok (slot', net, acts) =>
        let u' := { u with net }.write i slot'
        if seq = maxPacketPerChunk then
          .ok ((abortUpload p u').1, acts.map (i, ·) ++ (abortUpload p u').2)
        else .ok (u', acts.map (i, ·)) := by
  simp only [inboundAck, receiveAck, h, UploadSlot.takeAck]
  cases popAcked env.smoothing (clk 0) seq slot.sentQueueHead u.net with
  | error f => rfl
  | ok r =>
    obtain ⟨queue, net, count⟩ := r
    simp only
    cases fastRetransmit slot seq net.rto queue with
    | error f => rfl
    | ok r =>
      obtain ⟨queue', dup⟩ := r
      have hid := getUploadIndexById_id h
      have h₁ : getUploadIndexById p ({ u with net }.write i { slot with
          dupAckCount := dup, lastAck := seq, uploadLastTime := clk 1, sentQueueHead := queue'
          sentQueueSize := slot.sentQueueSize - count }) = some (i, _) := Table.lookup_set h hid
      simp only [windowControl, change_eq h₁, write_write]
      split_ifs <;> simp

/-! ## What `receive_ack` leaves -/

/-- The loop pops the numbers up to the acknowledged one, unless `infer_RTT` exits. -/
theorem popAcked_ok {sm : Smoothing} {now : Time} {seq : Nat} {queue left : List SentPacket}
    {net net' : NetworkParams} {count : Nat} (h : popAcked sm now seq queue net = .ok (left, net', count)) :
    left = queue.dropWhile (fun sp => decide (sp.seq ≤ seq)) ∧
      count = (queue.takeWhile fun sp => decide (sp.seq ≤ seq)).length := by
  induction queue generalizing net count with
  | nil =>
    cases h
    exact ⟨rfl, rfl⟩
  | cons head rest ih =>
    rw [popAcked] at h
    rw [List.dropWhile_cons, List.takeWhile_cons]
    by_cases hle : head.seq ≤ seq
    · rw [if_pos hle] at h
      rw [if_pos (by simpa using hle), if_pos (by simpa using hle)]
      split at h
      · cases h
      · split at h
        · cases h
        · rename_i hrest
          cases h
          obtain ⟨hleft, hcount⟩ := ih hrest
          exact ⟨hleft, congrArg (· + 1) hcount⟩
    · rw [if_neg hle] at h
      cases h
      rw [if_neg (by simpa using hle), if_neg (by simpa using hle)]
      exact ⟨rfl, rfl⟩

/-- The third duplicate only moves a time stamp. -/
theorem fastRetransmit_seqs {seq dup : Nat} {rto : Int} {queue queue' : List SentPacket}
    (h : fastRetransmit slot seq rto queue = .ok (queue', dup)) :
    queue'.map (·.seq) = queue.map (·.seq) := by
  unfold fastRetransmit at h
  split_ifs at h
  · split at h
    · cases h
    · split_ifs at h
      cases h
      rfl
  · cases h
    rfl
  · cases h
    rfl

/-- The numbers `receive_ack` leaves in the queue. -/
def UploadSlot.unacked (slot : UploadSlot) (seq : Nat) : List Nat :=
  slot.seqs.dropWhile fun x => decide (x ≤ seq)

/-- The number of packets `receive_ack` pops. -/
def UploadSlot.ackCount (slot : UploadSlot) (seq : Nat) : Nat :=
  (slot.seqs.takeWhile fun x => decide (x ≤ seq)).length

theorem popAcked_seqs {sm : Smoothing} {now : Time} {seq : Nat} {left : List SentPacket}
    {net net' : NetworkParams} {count : Nat}
    (h : popAcked sm now seq slot.sentQueueHead net = .ok (left, net', count)) :
    left.map (·.seq) = slot.unacked seq ∧ count = slot.ackCount seq := by
  obtain ⟨hleft, hcount⟩ := popAcked_ok h
  rw [hleft, hcount, UploadSlot.unacked, UploadSlot.ackCount, UploadSlot.seqs, List.dropWhile_map,
    List.takeWhile_map, List.length_map]
  exact ⟨rfl, rfl⟩

/-- What an acknowledgement does to a slot when it returns. -/
structure Acknowledged (slot : UploadSlot) (seq : Nat) (slot' : UploadSlot)
    (acts : List StreamAction) : Prop where
  uploadId : slot'.uploadId = slot.uploadId
  uploadChunkId : slot'.uploadChunkId = slot.uploadChunkId
  tail : slot'.sentQueueTail = slot.sentQueueTail
  seqs : slot'.seqs = slot.unacked seq
  size : slot'.sentQueueSize = slot.sentQueueSize - slot.ackCount seq
  window : slot'.window = (slot.window.control (slot.ackCount seq)).1
  acts : acts = .acked seq (slot.ackCount seq) ::
    if (slot.window.control (slot.ackCount seq)).2 then [.logWindow slot'.window.cwnds] else []

theorem takeAck_ok {sm : Smoothing} {seq : Nat} {clk : Clock} {net net' : NetworkParams}
    {acts : List StreamAction} (h : slot.takeAck sm seq clk net = .ok (slot', net', acts)) :
    Acknowledged slot seq slot' acts := by
  unfold UploadSlot.takeAck at h
  split at h
  · cases h
  · rename_i queue net₁ count hpop
    obtain ⟨hseqs, rfl⟩ := popAcked_seqs hpop
    split at h
    · cases h
    · rename_i queue' dup hfast
      cases h
      exact ⟨rfl, rfl, rfl, (fastRetransmit_seqs hfast).trans hseqs, rfl, rfl, rfl⟩

/-- An ACK that returned took the slot of its peer through `takeAck`, and ended it if it was the ACK
of the last packet. -/
theorem inboundAck_found {n : Nat} {clk : Clock} (h : getUploadIndexById p u = some (i, slot))
    (hs : inboundAck env p n clk u = .ok (u', l)) : ∃ slot' net acts,
      slot.takeAck env.smoothing n clk u.net = .ok (slot', net, acts) ∧
      u' = { u with net }.write i (if n = maxPacketPerChunk then slot'.abort else slot') ∧
      l = (acts ++ if n = maxPacketPerChunk then [StreamAction.aborted] else []).map (i, ·) := by
  rw [inboundAck_eq h] at hs
  cases htake : slot.takeAck env.smoothing n clk u.net with
  | error f =>
    rw [htake] at hs
    cases hs
  | ok r =>
    obtain ⟨slot', net, acts⟩ := r
    have hid : slot'.uploadId = p := (takeAck_ok htake).uploadId.trans (getUploadIndexById_id h)
    have h' : getUploadIndexById p ({ u with net }.write i slot') = some (i, slot') :=
      Table.lookup_set h hid
    simp only [htake, abortUpload, change_eq h', write_write] at hs
    refine ⟨slot', net, acts, rfl, ?_⟩
    split_ifs at hs with hn
    · cases hs
      rw [if_pos hn, if_pos hn, List.map_append]
      exact ⟨rfl, rfl⟩
    · cases hs
      rw [if_neg hn, if_neg hn, List.append_nil]
      exact ⟨rfl, rfl⟩

theorem inboundAck_none (h : getUploadIndexById p u = none) (seq : Nat) (clk : Clock) :
    inboundAck env p seq clk u = .ok (u, []) := by
  simp [inboundAck, receiveAck, windowControl, abortUpload, change_none, h]

/-! ## What a property must be kept by -/

variable {P : UploadSlot → Epoch → Prop} {Q : Epoch → StreamAction → Prop} {R : Int → Int → Int → Prop}

theorem actsOk_append {e : Epoch} {acts acts' : List StreamAction} (h : ActsOk Q e acts)
    (h' : ActsOk Q (acts.foldl Epoch.next e) acts') : ActsOk Q e (acts ++ acts') := by
  induction acts generalizing e with
  | nil => exact h'
  | cons a acts ih => exact ⟨h.1, ih h.2 h'⟩

theorem actsOk_true (acts : List StreamAction) :
    ∀ e : Epoch, ActsOk (fun _ _ => True) e acts := by
  induction acts with
  | nil => exact fun _ => trivial
  | cons a acts ih => exact fun e => ⟨trivial, ih _⟩

theorem Keeps.trans {slot'' : UploadSlot} {acts acts' : List StreamAction}
    (h : Keeps P Q slot acts slot') (h' : Keeps P Q slot' acts' slot'') :
    Keeps P Q slot (acts ++ acts') slot'' := by
  intro e he
  obtain ⟨hacts, he'⟩ := h e he
  obtain ⟨hacts', he''⟩ := h' _ he'
  rw [List.foldl_append]
  exact ⟨actsOk_append hacts hacts', he''⟩

theorem Keeps.refl (slot : UploadSlot) : Keeps P Q slot [] slot := fun _ he => ⟨trivial, he⟩

/-- Each slot operation keeps `P` and meets `Q`. `R` relates, for a peer, its slot's chunk and the
chunk a pass of `send_data_packets` takes from its list. -/
structure Kept (env : Env) (P : UploadSlot → Epoch → Prop) (Q : Epoch → StreamAction → Prop)
    (R : Int → Int → Int → Prop) : Prop where
  stamp : ∀ slot now, Keeps P Q slot [] (slot.stamp now)
  timeout : ∀ slot,
    Keeps P Q slot [.windowTimeout, .logWindow 1] (slot.setWindow slot.window.timeout)
  fresh : ∀ slot c n stack now, slot.uploadId ≠ idNull → R slot.uploadId slot.uploadChunkId c →
    slot.sentQueueSize < toInt32 slot.window.cwnds → n = toUnsigned slot.tailSeq →
    n < maxPacketPerChunk →
    Keeps P Q slot [.transmitted slot.uploadId (n + 1) (chunkData env stack c n) false]
      (slot.enqueue (n + 1) now)
  again : ∀ slot head rest c stack, slot.uploadId ≠ idNull → R slot.uploadId slot.uploadChunkId c →
    slot.sentQueueHead = head :: rest → head.seq ≠ 0 → head.seq - 1 < maxPacketPerChunk →
    Keeps P Q slot
      [.transmitted slot.uploadId (head.seq - 1 + 1) (chunkData env stack c (head.seq - 1)) true] slot
  ack : ∀ slot slot' seq clk net net' acts,
    slot.takeAck env.smoothing seq clk net = .ok (slot', net', acts) → Keeps P Q slot acts slot'
  abort : ∀ slot, Keeps P Q slot [.aborted] slot.abort

theorem Kept.transmitFresh (hk : Kept env P Q R) (hid : slot.uploadId ≠ idNull)
    (hR : R slot.uploadId slot.uploadChunkId c) (hroom : slot.sentQueueSize < toInt32 slot.window.cwnds)
    (pass : Pass) : Keeps P Q slot
      (slot.transmit env slot.uploadId c (toUnsigned slot.tailSeq) false pass).2
      (slot.transmit env slot.uploadId c (toUnsigned slot.tailSeq) false pass).1 := by
  unfold UploadSlot.transmit
  by_cases hn : toUnsigned slot.tailSeq < maxPacketPerChunk
  · rw [if_pos hn]
    exact hk.fresh slot c _ _ _ hid hR hroom rfl hn
  · rw [if_neg hn]
    exact .refl slot

theorem Kept.transmitAgain (hk : Kept env P Q R) {head : SentPacket} {rest : List SentPacket}
    (hid : slot.uploadId ≠ idNull) (hR : R slot.uploadId slot.uploadChunkId c)
    (hhead : slot.sentQueueHead = head :: rest) (hseq : head.seq ≠ 0) (pass : Pass) :
    Keeps P Q slot (slot.transmit env slot.uploadId c (head.seq - 1) true pass).2
      (slot.transmit env slot.uploadId c (head.seq - 1) true pass).1 := by
  unfold UploadSlot.transmit
  by_cases hn : head.seq - 1 < maxPacketPerChunk
  · rw [if_pos hn]
    exact (hk.again slot head rest c _ hid hR hhead hseq hn).trans (hk.stamp slot (pass.clk 2))
  · rw [if_neg hn]
    exact .refl slot

theorem Kept.pass (hk : Kept env P Q R) (hid : slot.uploadId ≠ idNull)
    (hR : R slot.uploadId slot.uploadChunkId c) (pass : Pass) (rto : Int) :
    Keeps P Q slot (slot.sendPass env slot.uploadId c pass rto).2
      (slot.sendPass env slot.uploadId c pass rto).1 := by
  simp only [UploadSlot.sendPass]
  rcases checkTimeout_cases (pass.clk 0) (pass.clk 1) rto slot with h | ⟨head, rest, hhead, h⟩
  · rw [h, if_pos rfl]
    split_ifs with hroom
    · exact hk.transmitFresh hid hR hroom pass
    · exact .refl slot
  · rw [h]
    have hstamp := hk.stamp slot (pass.clk 1)
    by_cases hseq : head.seq = 0
    · rw [if_pos hseq]
      split_ifs with hroom
      · have hid' : (slot.stamp (pass.clk 1)).uploadId ≠ idNull := by simpa using hid
        have hsend := hk.transmitFresh hid' (by simpa using hR) hroom pass
        rw [stamp_uploadId] at hsend
        exact hstamp.trans hsend
      · exact hstamp
    · rw [if_neg hseq]
      have hhead' : ((slot.stamp (pass.clk 1)).setWindow (slot.stamp (pass.clk 1)).window.timeout).sentQueueHead
          = { head with timestamp := pass.clk 1 } :: rest := by
        simp [UploadSlot.setWindow, UploadSlot.stamp, hhead]
      have hid' : ((slot.stamp (pass.clk 1)).setWindow (slot.stamp (pass.clk 1)).window.timeout).uploadId
          = slot.uploadId := stamp_uploadId _
      have hsend := hk.transmitAgain (hid' ▸ hid) (by simpa [UploadSlot.setWindow] using hR) hhead'
        hseq pass
      rw [hid'] at hsend
      exact hstamp.trans ((hk.timeout _).trans hsend)

/-- Slots of one peer have chunks related by `R`. -/
def Pairs (R : Int → Int → Int → Prop) (u : Uploads) : Prop :=
  ∀ (i j : Nat) (a b : UploadSlot), u.slots[i]? = some a → u.slots[j]? = some b →
    a.uploadId = b.uploadId → a.uploadId ≠ idNull → R a.uploadId a.uploadChunkId b.uploadChunkId

theorem Kept.loop (hk : Kept env P Q R) (pass : Nat → Pass) :
    ∀ (pairs : List (Int × Int)) (u : Uploads) (log : UploadLog), Good P Q u log →
      (∀ p c, (p, c) ∈ pairs → p ≠ idNull ∧
        ∀ i slot, getUploadIndexById p u = some (i, slot) → R p slot.uploadChunkId c) →
      Good P Q (sendLoop env pass pairs u).1 (log ++ (sendLoop env pass pairs u).2) := by
  intro pairs
  induction pairs with
  | nil => intro u log h _; simpa [sendLoop] using h
  | cons pc rest ih =>
    obtain ⟨p, c⟩ := pc
    intro u log h hpairs
    obtain ⟨hp, hR⟩ := hpairs p c List.mem_cons_self
    simp only [sendLoop, ← List.append_assoc]
    cases hl : getUploadIndexById p u with
    | none =>
      rw [sendDataPacket_none hl, List.append_nil]
      exact ih u log h fun p' c' hmem => hpairs p' c' (List.mem_cons_of_mem _ hmem)
    | some r =>
      obtain ⟨i, slot⟩ := r
      have hid := getUploadIndexById_id hl
      rw [sendDataPacket_eq hl]
      have hactive : slot.uploadId ≠ idNull := hid.symm ▸ hp
      have hpass := hk.pass hactive (hid.symm ▸ hR i slot hl) (pass rest.length) u.net.rto
      rw [hid] at hpass
      refine ih _ _ (h.write u.net (getUploadIndexById_get hl) hpass) ?_
      -- a pass changes no peer and no chunk of a slot
      intro p' c' hmem
      obtain ⟨hp', hR'⟩ := hpairs p' c' (List.mem_cons_of_mem _ hmem)
      refine ⟨hp', fun j s hj => ?_⟩
      obtain ⟨hids, hchunks⟩ := sendPass_ids env p c (pass rest.length) u.net.rto slot
      obtain ⟨hget, hkey, hmin⟩ := Table.lookup_eq_some.mp hj
      have hlen := Table.lookup_lt hl
      rcases Table.get_set_cases hlen hget with ⟨rfl, rfl⟩ | ⟨hne, hget⟩
      · rw [hchunks]
        exact hR' j slot (by rw [← hkey, hids, hid]; exact hl)
      · refine hR' j s (Table.lookup_eq_some.mpr ⟨hget, hkey, fun k b hk hb => ?_⟩)
        by_cases hki : i = k
        · subst hki
          rw [getUploadIndexById_get hl] at hb
          cases hb
          exact hids ▸ hmin i _ hk (Table.get_set_self hlen)
        · exact hmin k b hk (by rw [← hb]; exact Table.get_set_ne hki)

theorem mem_sendPairs (h : (p, c) ∈ (getUploadList u).zip (getUploadChunkList u)) :
    p ≠ idNull ∧ ∃ (j : Nat) (b : UploadSlot), u.slots[j]? = some b ∧ b.uploadId = p ∧
      b.uploadChunkId = c := by
  rw [getUploadList, getUploadChunkList, List.zip_map', List.mem_map] at h
  obtain ⟨b, hb, he⟩ := h
  simp only [Prod.mk.injEq] at he
  obtain ⟨rfl, rfl⟩ := he
  obtain ⟨hmem, hne⟩ := List.mem_filter.mp hb
  obtain ⟨j, hj⟩ := List.mem_iff_getElem?.mp hmem
  exact ⟨by simpa using hne, j, b, hj, rfl, rfl⟩

theorem Kept.send (hk : Kept env P Q R) (h : Good P Q u log) (hR : Pairs R u)
    (pass : Nat → Pass) :
    Good P Q (sendDataPackets env pass u).1 (log ++ (sendDataPackets env pass u).2) := by
  refine hk.loop pass _ u log h fun p c hmem => ?_
  obtain ⟨hp, j, b, hj, hb, rfl⟩ := mem_sendPairs hmem
  refine ⟨hp, fun i slot hi => ?_⟩
  have hid := getUploadIndexById_id hi
  exact hid ▸ hR i j slot b (getUploadIndexById_get hi) hj (hid.trans hb.symm) (hid.symm ▸ hp)

theorem Kept.abortUpload (hk : Kept env P Q R) (h : Good P Q u log) (p : Int) :
    Good P Q (abortUpload p u).1 (log ++ (abortUpload p u).2) :=
  h.change fun _ slot _ => hk.abort slot

theorem Kept.cleanUploadTimeout (hk : Kept env P Q R) (h : Good P Q u log) (now : Time) :
    Good P Q (cleanUploadTimeout now u).1 (log ++ (cleanUploadTimeout now u).2) := by
  unfold Bittorrent.cleanUploadTimeout
  split
  · simpa using h
  · exact hk.abortUpload h _

theorem Kept.inboundAck (hk : Kept env P Q R) (h : Good P Q u log) {seq : Nat} {clk : Clock}
    (hs : inboundAck env p seq clk u = .ok (u', l)) : Good P Q u' (log ++ l) := by
  cases hl : getUploadIndexById p u with
  | none =>
    rw [inboundAck_none hl] at hs
    cases hs
    simpa using h
  | some r =>
    obtain ⟨i, slot⟩ := r
    rw [inboundAck_eq hl] at hs
    split at hs
    · cases hs
    · rename_i slot' net acts htake
      have hgood := h.write net (getUploadIndexById_get hl) (hk.ack _ _ _ _ _ _ _ htake)
      simp only at hs
      split_ifs at hs
      · cases hs
        rw [← List.append_assoc]
        exact hk.abortUpload hgood p
      · cases hs
        exact hgood

/-! ## The GET -/

theorem inboundGet_eq (h : getUploadIndexById idNull u = some (i, slot)) (clk : Clock) :
    inboundGet p c clk u = ((initCwnd p (u.write i (slot.start p c (clk 0)))).1,
      [.started p c].map (i, ·) ++ (initCwnd p (u.write i (slot.start p c (clk 0)))).2) := by
  simp [inboundGet, startUpload, h]

theorem inboundGet_none (h : getUploadIndexById idNull u = none) (clk : Clock) :
    inboundGet p c clk u = (u, []) := by
  simp [inboundGet, startUpload, h]

theorem inboundGet_found (h : getUploadIndexById idNull u = some (i, slot)) (p c : Int) (clk : Clock) :
    ∃ j slot', getUploadIndexById p (u.write i (slot.start p c (clk 0))) = some (j, slot') ∧
      inboundGet p c clk u = ((u.write i (slot.start p c (clk 0))).write j (slot'.setWindow .init),
        [(i, .started p c), (j, .logWindow 1)]) := by
  have hget : (u.write i (slot.start p c (clk 0))).slots[i]? = some (slot.start p c (clk 0)) :=
    Table.get_set_self (Table.lookup_lt h)
  obtain ⟨j, slot', hfound, -⟩ : ∃ j slot', getUploadIndexById p (u.write i
      (slot.start p c (clk 0))) = some (j, slot') ∧ j ≤ i := Table.lookup_exists hget rfl
  refine ⟨j, slot', hfound, ?_⟩
  rw [inboundGet_eq h, initCwnd, change_eq hfound]
  rfl

theorem Good.inboundGet (h : Good P Q u log) (clk : Clock)
    (hstart : ∀ slot, slot.uploadId = idNull →
      Keeps P Q slot [.started p c] (slot.start p c (clk 0)))
    (hinit : ∀ slot, slot.uploadId = p → Keeps P Q slot [.logWindow 1] (slot.setWindow .init)) :
    Good P Q (inboundGet p c clk u).1 (log ++ (inboundGet p c clk u).2) := by
  cases hl : getUploadIndexById idNull u with
  | none =>
    rw [inboundGet_none hl, List.append_nil]
    exact h
  | some r =>
    obtain ⟨i, slot⟩ := r
    rw [inboundGet_eq hl, ← List.append_assoc]
    have hgood := h.write u.net (getUploadIndexById_get hl)
      (hstart slot (getUploadIndexById_id hl))
    exact hgood.change fun _ slot h => hinit slot (getUploadIndexById_id h)

theorem good_initUploads {max : Nat} {unset : Nat → UnsetSlot} (h : ∀ slot,
    slot.uploadId = idNull → slot.sentQueueHead = [] → slot.sentQueueTail = none →
      P slot Epoch.empty) : Good P Q (initUploads max unset) [] := by
  refine ⟨fun i slot hi => ?_, always_nil⟩
  obtain ⟨_, _, rfl⟩ := List.mem_map.mp (List.mem_of_getElem? hi)
  exact h _ rfl rfl rfl

/-! ## A step -/

theorem Kept.step (hk : Kept env P Q R) {e : UploadEvent} (h : Good P Q u log)
    (hR : ∀ pass, e = .send pass → Pairs R u)
    (hget : ∀ p c clk, e = .get p c clk →
      Good P Q (inboundGet p c clk u).1 (log ++ (inboundGet p c clk u).2))
    (hs : (uploadMachine env).step e u = .ok (u', l)) : Good P Q u' (log ++ l) := by
  cases e with
  | get p c clk =>
    have hr := hget p c clk rfl
    rw [Except.ok.inj hs] at hr
    exact hr
  | ack p seq clk => exact hk.inboundAck h hs
  | send pass =>
    have hr := hk.send h (hR pass rfl) pass
    rw [Except.ok.inj hs] at hr
    exact hr
  | clean now =>
    have hr := hk.cleanUploadTimeout h now
    rw [Except.ok.inj hs] at hr
    exact hr
  | abort p =>
    have hr := hk.abortUpload h p
    rw [Except.ok.inj hs] at hr
    exact hr

end Bittorrent
