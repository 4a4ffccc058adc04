import Bittorrent.Upload.Estimator
import Bittorrent.Upload.StaleAck
import Bittorrent.Upload.Window

/-!
# An upload that goes on

`Ready` is what the slot of an upload keeps, whatever the order of passes and acknowledgements: packets
`a + 1, ..., t` are outstanding, the window is open, and the ACK taken last is not ahead of `a`. So an ACK
above `a` is never a duplicate and is always taken (`Ready.takes`), and once the head of the queue has timed
out a pass transmits packet `a + 1`, as the head of the queue or as the first packet of a queue that is
empty (`Ready.supply`).

`Ready` is a forward invariant of one slot in the numbers `a` and `t`; `Ready.pass` lets `t` grow, and
`Ready.acknowledged` lets `a` grow. The two facts about liveness come from it without any fairness. A pass
whose head has expired sends the head, which is `a + 1`, and a pass with an empty queue has room, since the
window is at least one, and sends `t + 1 = a + 1`. `Serving` says it of the only slot of a peer in the whole
state, where the loop of `send_data_packets` is one pass (`OnlySlot.sendDataPackets`). `Timely` adds the
clock: with samples of at most `S` the head has expired once `RTO` is over, whichever ACKs came in between
(`Serving.supply`), and on a sample of at most `S` `infer_RTT` returns, so the ACK is read to its end
(`Serving.takes`).
-/

namespace Bittorrent

variable {env : Env} {u u' : Uploads} {p c : Int} {i a t m : Nat} {slot slot' : UploadSlot} {clk : Clock}
  {rto S : Int} {now : Time} {net : NetworkParams} {l : UploadLog}

/-! ## The slot -/

/-- The packets up to `t` were transmitted and those up to `a` acknowledged. -/
structure Ready (slot : UploadSlot) (a t : Nat) : Prop where
  queue : Consecutive slot.seqs a t
  size : slot.sentQueueSize = (t : Int) - a
  tail : slot.tailSeq = t
  bound : t ≤ maxPacketPerChunk
  pos : 1 ≤ slot.window.cwnds
  earned : slot.window.cwnds + slot.window.ackCounts ≤ a + 1
  told : slot.lastAck ≤ a

theorem Ready.stamp (h : Ready slot a t) (now : Time) : Ready (slot.stamp now) a t := by
  refine ⟨?_, ?_, ?_, h.bound, ?_, ?_, ?_⟩
  · rw [stamp_seqs]
    exact h.queue
  · rw [stamp_sentQueueSize]
    exact h.size
  · rw [stamp_tailSeq]
    exact h.tail
  · rw [stamp_window]
    exact h.pos
  · rw [stamp_window]
    exact h.earned
  · unfold UploadSlot.stamp
    split
    · exact h.told
    · exact h.told

theorem Ready.timeout (h : Ready slot a t) : Ready (slot.setWindow slot.window.timeout) a t := by
  have hpos := h.pos
  have hearned := h.earned
  refine ⟨h.queue, h.size, h.tail, h.bound, le_refl 1, ?_, h.told⟩
  simp only [UploadSlot.setWindow, Window.timeout]
  omega

theorem Ready.queue_of_tail (h : Ready slot a t) (hnone : slot.sentQueueTail = none) :
    slot.sentQueueHead = [] := by
  have htail := h.tail
  have hle := h.queue.le
  rw [UploadSlot.tailSeq, hnone] at htail
  apply List.map_eq_nil_iff.mp
  apply h.queue.eq_nil_iff.mpr
  simp only at htail
  omega

theorem Ready.enqueue (h : Ready slot a t) (ht : t < maxPacketPerChunk) (now : Time) :
    Ready (slot.enqueue (t + 1) now) a (t + 1) := by
  have hsize := h.size
  refine ⟨?_, ?_, rfl, ht, h.pos, h.earned, h.told⟩
  · rw [enqueue_seqs now h.queue_of_tail]
    exact h.queue.push
  · simp only [UploadSlot.enqueue]
    omega

theorem Ready.toUnsigned_tail (h : Ready slot a t) : toUnsigned slot.tailSeq = t := by
  have hbound := h.bound
  rw [h.tail, toUnsigned]
  simp only [maxPacketPerChunk] at hbound
  omega

theorem Ready.head {head : SentPacket} {rest : List SentPacket} (h : Ready slot a t)
    (hqueue : slot.sentQueueHead = head :: rest) : head.seq = a + 1 ∧ a < t := by
  apply Consecutive.head
  have hcons := h.queue
  rwa [UploadSlot.seqs, hqueue, List.map_cons] at hcons

/-! ## Passes -/

theorem Ready.pass (h : Ready slot a t) (env : Env) (p c : Int) (pass : Pass) (rto : Int) :
    ∃ t', t ≤ t' ∧ Ready (slot.sendPass env p c pass rto).1 a t' ∧ ∀ q seq bytes again,
      .transmitted q seq bytes again ∈ (slot.sendPass env p c pass rto).2 → seq ≤ t' := by
  simp only [UploadSlot.sendPass]
  rcases checkTimeout_cases (pass.clk 0) (pass.clk 1) rto slot with hcheck | ⟨head, rest, hqueue, hcheck⟩
  · simp only [hcheck, if_true, h.toUnsigned_tail, UploadSlot.transmit, Bool.false_eq_true, if_false]
    split_ifs with hroom hlt
    · refine ⟨t + 1, Nat.le_succ t, h.enqueue hlt (pass.clk 2), fun q seq bytes again hmem => ?_⟩
      exact (StreamAction.transmitted.inj (List.mem_singleton.mp hmem)).2.1.le
    · exact ⟨t, le_refl t, h, fun _ _ _ _ hmem => absurd hmem List.not_mem_nil⟩
    · exact ⟨t, le_refl t, h, fun _ _ _ _ hmem => absurd hmem List.not_mem_nil⟩
  · obtain ⟨hseq, hlt⟩ := h.head hqueue
    have hplace : a < maxPacketPerChunk := lt_of_lt_of_le hlt h.bound
    simp only [hcheck, hseq, Nat.succ_ne_zero, if_false, Nat.add_sub_cancel, UploadSlot.transmit,
      if_pos hplace, if_true]
    refine ⟨t, le_refl t, ((h.stamp (pass.clk 1)).timeout).stamp (pass.clk 2), fun q seq bytes again hmem => ?_⟩
    simp only [List.mem_append, List.mem_cons, List.not_mem_nil, or_false, reduceCtorEq, false_or,
      StreamAction.transmitted.injEq] at hmem
    omega

theorem Ready.toInt32_cwnds (h : Ready slot a t) : toInt32 slot.window.cwnds = slot.window.cwnds := by
  have hearned := h.earned
  have hbound := h.bound
  have hle := h.queue.le
  simp only [maxPacketPerChunk] at hbound
  exact toInt32_eq (by omega) (by omega)

theorem Ready.supply (h : Ready slot a t) (ha : a < maxPacketPerChunk) (env : Env) (p c : Int)
    (hdue : ∀ packet ∈ slot.sentQueueHead, expired now packet.timestamp rto = true) :
    ∃ rest bytes again, (slot.sendPass env p c (passAt now) rto).1.sentQueueHead = ⟨a + 1, now⟩ :: rest ∧
      rest ⊆ slot.sentQueueHead ∧
      .transmitted p (a + 1) bytes again ∈ (slot.sendPass env p c (passAt now) rto).2 := by
  rcases hqueue : slot.sentQueueHead with _ | ⟨head, rest⟩
  · -- nothing is outstanding, and the window is open
    have hat : a = t := h.queue.eq_nil_iff.mp (by rw [UploadSlot.seqs, hqueue]; rfl)
    have hcheck : slot.checkTimeout now now rto = (0, slot) := by rw [UploadSlot.checkTimeout, hqueue]
    have hroom : slot.sentQueueSize < toInt32 slot.window.cwnds := by
      have hsize := h.size
      have hpos := h.pos
      rw [h.toInt32_cwnds]
      omega
    have hpass : slot.sendPass env p c (passAt now) rto =
        (slot.enqueue (a + 1) now, [.transmitted p (a + 1) (chunkData env (passAt now).stack c a) false]) := by
      simp only [UploadSlot.sendPass, passAt, hcheck, if_true, if_pos hroom, h.toUnsigned_tail, ← hat,
        UploadSlot.transmit, if_pos ha]
      rfl
    rw [hpass]
    refine ⟨[], _, false, ?_, List.nil_subset _, List.mem_singleton_self _⟩
    simp [UploadSlot.enqueue, hqueue]
  · -- the head is sent again
    obtain ⟨hseq, hlt⟩ := h.head hqueue
    have hexpired := hdue head (by rw [hqueue]; exact List.mem_cons_self)
    have hstamp : slot.stamp now = { slot with sentQueueHead := ⟨a + 1, now⟩ :: rest } := by
      rw [UploadSlot.stamp, hqueue, ← hseq]
    have hcheck : slot.checkTimeout now now rto = (a + 1, slot.stamp now) := by
      rw [UploadSlot.checkTimeout, hqueue]
      simp only [hexpired, if_true, hseq]
    have hpass : slot.sendPass env p c (passAt now) rto =
        (((slot.stamp now).setWindow (slot.stamp now).window.timeout).stamp now,
          [.windowTimeout, .logWindow 1,
            .transmitted p (a + 1) (chunkData env (passAt now).stack c a) true]) := by
      simp only [UploadSlot.sendPass, passAt, hcheck, Nat.succ_ne_zero, if_false, Nat.add_sub_cancel,
        UploadSlot.transmit, if_pos ha, if_true]
      rfl
    rw [hpass]
    refine ⟨rest, chunkData env (passAt now).stack c a, true, ?_, List.subset_cons_self _ _, by simp⟩
    rw [hstamp]
    rfl

/-! ## Acknowledgements -/

theorem Ready.acknowledged {acts : List StreamAction} (h : Ready slot a t) (hm : m ≤ t)
    (hack : Acknowledged slot m slot' acts) (hlast : slot'.lastAck = m) : Ready slot' (max a m) t := by
  have hqueue := h.queue.ack m
  have hcount := h.queue.takeWhile_length m
  have hsize := h.size
  have hbound := h.bound
  have hle := h.queue.le
  rw [Nat.min_eq_left hm] at hqueue hcount
  obtain ⟨hgrow, hearned, -⟩ := control_bounds h.pos h.earned
    (show a + slot.ackCount m ≤ maxPacketPerChunk by rw [UploadSlot.ackCount, hcount]; omega)
  rw [← hack.window] at hgrow hearned
  refine ⟨?_, ?_, ?_, hbound, h.pos.trans hgrow, ?_, ?_⟩
  · rw [hack.seqs]
    exact hqueue
  · rw [hack.size, hsize, UploadSlot.ackCount, hcount]
    omega
  · rw [← h.tail, UploadSlot.tailSeq, UploadSlot.tailSeq, hack.tail]
  · rw [UploadSlot.ackCount, hcount] at hearned
    omega
  · rw [hlast]
    exact le_max_right a m

/-- An ACK that is not the one taken last only pops packets. -/
theorem takeAck_fresh {sm : Smoothing} (clk : Clock) {net net' : NetworkParams} {left : List SentPacket}
    {count : Nat} (h : slot.lastAck ≠ m) (hpop : popAcked sm (clk 0) m slot.sentQueueHead net =
      .ok (left, net', count)) :
    ∃ slot' acts, slot.takeAck sm m clk net = .ok (slot', net', acts) ∧ slot'.sentQueueHead = left := by
  have hfast : fastRetransmit slot m net'.rto left = .ok (left, 0) := by
    unfold fastRetransmit
    exact if_neg h
  simp only [UploadSlot.takeAck, hpop, hfast]
  exact ⟨_, _, rfl, rfl⟩

theorem Ready.takes {sm : Smoothing} {net' : NetworkParams} {left : List SentPacket} {count : Nat}
    (h : Ready slot a t) (hlt : a < m) (hm : m ≤ t) (clk : Clock)
    (hpop : popAcked sm (clk 0) m slot.sentQueueHead net = .ok (left, net', count)) :
    ∃ slot' acts, slot.takeAck sm m clk net = .ok (slot', net', acts) ∧ Ready slot' m t ∧
      slot'.sentQueueHead ⊆ slot.sentQueueHead := by
  have hne : slot.lastAck ≠ m := by
    have htold := h.told
    omega
  obtain ⟨slot', acts, htake, hqueue⟩ := takeAck_fresh clk hne hpop
  have hready := h.acknowledged hm (takeAck_ok htake) (takeAck_lastAck htake)
  rw [Nat.max_eq_right hlt.le] at hready
  refine ⟨slot', acts, htake, hready, ?_⟩
  rw [hqueue, (popAcked_ok hpop).1]
  exact (List.dropWhile_sublist _).subset

/-! ## The peer's only slot -/

/-- `Ready`, for the only slot of `p`. -/
structure Serving (p : Int) (i a t : Nat) (u : Uploads) : Prop where
  only : OnlySlot p i u
  slot : ∃ slot, getUploadIndexById p u = some (i, slot) ∧ Ready slot a t

/-- The packets that wait for an ACK of `p`. -/
def waiting (p : Int) (u : Uploads) : List SentPacket := u.read p [] (·.sentQueueHead)

/-- What a log has transmitted to `p` is not above `t`. -/
def SentUpTo (p : Int) (t : Nat) (l : UploadLog) : Prop :=
  ∀ j seq bytes again, (j, .transmitted p seq bytes again) ∈ l → seq ≤ t

theorem serving_started {u₀ : Uploads} {log : UploadLog} (hqueue : Good QueueInv QueueStep u₀ log)
    (hnone : getUploadIndexById p u₀ = none) (hfree : getUploadIndexById idNull u₀ = some (i, slot)) :
    Serving p i 0 0 (inboundGet p c clk u₀).1 := by
  have hlt := Table.lookup_lt hfree
  obtain ⟨hnil, htail⟩ : slot.sentQueueHead = [] ∧ slot.sentQueueTail = none := by
    rcases hqueue.1 i slot (getUploadIndexById_get hfree) with ⟨-, hnil, htail, -⟩ | ⟨hne, -⟩
    · exact ⟨hnil, htail⟩
    · exact absurd (getUploadIndexById_id hfree) hne
  rw [inboundGet_new hfree hnone]
  refine ⟨fun j other hj hid => ?_, _, Table.lookup_set_new hnone hlt rfl, ?_⟩
  · rcases Table.get_set_cases hlt hj with ⟨rfl, -⟩ | ⟨-, hj⟩
    · rfl
    · exact absurd hid (Table.lookup_eq_none.mp hnone j other hj)
  · refine ⟨?_, rfl, ?_, Nat.zero_le _, le_refl 1, le_refl 1, le_refl 0⟩
    · have hseqs : ((slot.start p c (clk 0)).setWindow .init).seqs = [] := by
        simp only [UploadSlot.seqs, UploadSlot.start, UploadSlot.setWindow, hnil, List.map_nil]
      rw [hseqs]
      exact .nil 0
    · simp only [UploadSlot.tailSeq, UploadSlot.start, UploadSlot.setWindow, htail]

theorem Serving.send (h : Serving p i a t u) (hp : p ≠ idNull) (env : Env) (pass : Nat → Pass) :
    ∃ t', t ≤ t' ∧ Serving p i a t' (sendDataPackets env pass u).1 ∧
      SentUpTo p t' (sendDataPackets env pass u).2 := by
  obtain ⟨slot, hfound, hready⟩ := h.slot
  obtain ⟨honly, ⟨k, hslot, hlog⟩, hothers⟩ := h.only.sendDataPackets env hp hfound pass
  obtain ⟨t', hle, hready', hsent⟩ := hready.pass env p slot.uploadChunkId (pass k) u.net.rto
  refine ⟨t', hle, ⟨honly, _, hslot, hready'⟩, fun j seq bytes again hmem => ?_⟩
  obtain rfl := hothers _ _ _ _ hmem
  rw [← mem_slotLog, hlog] at hmem
  exact hsent _ _ _ _ hmem

theorem Serving.write (h : Serving p i a t u) (hfound : getUploadIndexById p u = some (i, slot))
    (hid : slot'.uploadId = slot.uploadId) (net : NetworkParams) (hready : Ready slot' m t) :
    Serving p i m t ({ u with net }.write i slot') where
  only := h.only.congr (Table.map_set_key (getUploadIndexById_get hfound) hid)
  slot := ⟨slot', Table.lookup_set hfound (hid.trans (getUploadIndexById_id hfound)), hready⟩

theorem inboundAck_silent (hs : inboundAck env p m clk u = .ok (u', l)) (q : Int) : SentUpTo q 0 l := by
  intro j seq bytes again hmem
  cases hfound : getUploadIndexById p u with
  | none =>
    rw [inboundAck_none hfound] at hs
    cases hs
    cases hmem
  | some r =>
    obtain ⟨i, slot⟩ := r
    obtain ⟨slot', net, acts, htake, -, rfl⟩ := inboundAck_found hfound hs
    obtain ⟨act, hact, he⟩ := List.mem_map.mp hmem
    obtain ⟨-, rfl⟩ := Prod.mk.inj he
    rw [(takeAck_ok htake).acts] at hact
    split_ifs at hact <;> simp at hact

theorem Serving.ack (h : Serving p i a t u) (hm : m ≤ t) (hlast : m ≠ maxPacketPerChunk)
    (hs : inboundAck env p m clk u = .ok (u', l)) : Serving p i (max a m) t u' := by
  obtain ⟨slot, hfound, hready⟩ := h.slot
  obtain ⟨slot', net, acts, htake, rfl, -⟩ := inboundAck_found hfound hs
  have hack := takeAck_ok htake
  rw [if_neg hlast]
  exact h.write hfound hack.uploadId net (hready.acknowledged hm hack (takeAck_lastAck htake))

/-! ## Time -/

/-- All samples so far are at most `S`, and no packet waits for more than `age` microseconds. -/
structure Timely (S : Int) (age : Nat) (now : Time) (p : Int) (u : Uploads) : Prop where
  net : Bounded S u.net
  queue : ∀ packet ∈ waiting p u, (now - packet.timestamp).toNat ≤ age

/-- When `RTO` is over. -/
def timeoutAt (now : Time) (rto : Int) : Time := now + BitVec.ofNat 64 (rto.toNat + 1)

theorem timeoutAt_sub {age : Nat} {stamp : Time} (h0 : 0 ≤ rto) (h1 : rto < 2 ^ 31) (hage : age < 2 ^ 63)
    (h : (now - stamp).toNat ≤ age) :
    ((timeoutAt now rto - stamp).toNat : Int) = (now - stamp).toNat + (rto + 1) := by
  have hsplit : timeoutAt now rto - stamp = (now - stamp) + BitVec.ofNat 64 (rto.toNat + 1) := by
    rw [timeoutAt, BitVec.sub_eq_add_neg, BitVec.sub_eq_add_neg, BitVec.add_assoc, BitVec.add_assoc,
      BitVec.add_comm (-stamp)]
  rw [hsplit, BitVec.toNat_add, BitVec.toNat_ofNat]
  omega

theorem Serving.supply {age : Nat} (h : Serving p i a t u) (hp : p ≠ idNull) (ha : a < maxPacketPerChunk)
    (hS : S ≤ 107374182) (hage : age < 2 ^ 63) (htimely : Timely S age now p u) (env : Env) :
    ∃ u' l t' bytes again, sendDataPackets env (fun _ => passAt (timeoutAt now u.net.rto)) u = (u', l) ∧
      t ≤ t' ∧ Serving p i a t' u' ∧ SentUpTo p t' l ∧ (i, .transmitted p (a + 1) bytes again) ∈ l ∧
      Timely S (age + 2 ^ 30) (timeoutAt now u.net.rto) p u' ∧
      ∀ packet ∈ waiting p u', packet.seq = a + 1 → packet.timestamp = timeoutAt now u.net.rto := by
  obtain ⟨-, h0, h1⟩ := htimely.net.rto_eq (by omega)
  obtain ⟨slot, hfound, hready⟩ := h.slot
  have hqueue : ∀ packet ∈ slot.sentQueueHead, (now - packet.timestamp).toNat ≤ age := by
    have hqueue := htimely.queue
    rwa [waiting, read_eq hfound] at hqueue
  have haged := fun packet hmem =>
    timeoutAt_sub h0 (show u.net.rto < 2 ^ 31 by omega) hage (hqueue packet hmem)
  have hdue : ∀ packet ∈ slot.sentQueueHead,
      expired (timeoutAt now u.net.rto) packet.timestamp u.net.rto = true := by
    intro packet hmem
    rw [expired_iff h0 (by omega), haged packet hmem]
    omega
  obtain ⟨t', hle, hserving, hsent⟩ := h.send hp env fun _ => passAt (timeoutAt now u.net.rto)
  obtain ⟨-, ⟨k, hslot, hlog⟩, -⟩ :=
    h.only.sendDataPackets env hp hfound fun _ => passAt (timeoutAt now u.net.rto)
  obtain ⟨rest, bytes, again, hhead, hrest, hmem⟩ := hready.supply ha env p slot.uploadChunkId hdue
  have hnet := sendDataPackets_net env (fun _ => passAt (timeoutAt now u.net.rto)) u
  generalize hrun : sendDataPackets env (fun _ => passAt (timeoutAt now u.net.rto)) u = r at *
  obtain ⟨u', l⟩ := r
  dsimp only at hserving hsent hslot hlog hnet
  have hwaiting : waiting p u' = ⟨a + 1, timeoutAt now u.net.rto⟩ :: rest := (read_eq hslot).trans hhead
  rw [← hlog, mem_slotLog] at hmem
  refine ⟨u', l, t', _, again, rfl, hle, hserving, hsent, hmem, ⟨hnet ▸ htimely.net, ?_⟩, ?_⟩
  · intro packet hpacket
    rw [hwaiting] at hpacket
    rcases List.mem_cons.mp hpacket with rfl | hpacket
    · simp
    · have := haged packet (hrest hpacket)
      have := hqueue packet (hrest hpacket)
      omega
  · -- the numbers of the queue are distinct
    intro packet hpacket hseq
    obtain ⟨slot', hfound', hready'⟩ := hserving.slot
    rw [hslot] at hfound'
    obtain ⟨-, rfl⟩ := Prod.mk.inj (Option.some.inj hfound')
    have hnodup : (⟨a + 1, timeoutAt now u.net.rto⟩ :: rest |>.map (·.seq)).Nodup := by
      rw [← hhead, ← UploadSlot.seqs, hready'.queue.2]
      exact List.nodup_range'
    rw [hwaiting] at hpacket
    rcases List.mem_cons.mp hpacket with rfl | hpacket
    · rfl
    · have hrepeat := List.mem_map_of_mem (f := (·.seq)) hpacket
      rw [hseq] at hrepeat
      rw [List.map_cons, List.nodup_cons] at hnodup
      exact absurd hrepeat hnodup.1

theorem Serving.takes {age : Nat} (h : Serving p i a t u) (henv : env.smoothing.Within S)
    (hS : S ≤ 107374182) (hlt : a < m) (hm : m ≤ t) (hlast : m ≠ maxPacketPerChunk)
    (htimely : Timely S age now p u)
    (hsample : ∀ packet ∈ waiting p u, packet.seq = m → SampleOk S now packet.timestamp) :
    ∃ u' l, inboundAck env p m (fun _ => now) u = .ok (u', l) ∧ Serving p i m t u' ∧
      Timely S age now p u' := by
  obtain ⟨slot, hfound, hready⟩ := h.slot
  have hqueue := htimely.queue
  rw [waiting, read_eq hfound] at hqueue hsample
  obtain ⟨left, net, count, hpop, hbounded⟩ := htimely.net.popAcked henv (by omega) hsample
  obtain ⟨slot', acts, htake, hready', hsub⟩ := hready.takes hlt hm (fun _ => now) hpop
  have hid := (takeAck_ok htake).uploadId
  have hserving := h.write hfound hid net hready'
  have hwaiting : waiting p ({ u with net }.write i slot') = slot'.sentQueueHead :=
    read_eq (Table.lookup_set hfound (hid.trans (getUploadIndexById_id hfound)))
  refine ⟨_, acts.map (i, ·), ?_, hserving, hbounded, fun packet hmem => hqueue packet (hsub (hwaiting ▸ hmem))⟩
  simp only [inboundAck_eq hfound, htake]
  exact if_neg hlast

end Bittorrent
