import Bittorrent.Upload.Slot

/-!
# Fast retransmit

The third duplicate ACK does not send anything: it sets the time stamp of the queue's head back by
`RTO`, so that the next `send_data_packets` finds the head timed out. `Awaits` is a slot that waits for
the packet after the one acknowledged; the duplicates and the passes between them keep it
(`Steady.ack`, `Steady.send`), and after the third one the next pass sends exactly that packet again
(`fast_retransmit`).

The order of the argument. `Awaits` names the head, packet `s + 1`, and the number `k` of duplicates so far.
A duplicate pops nothing, since the queue begins above `s`, so it only counts (`Awaits.takeAck`); a pass in
between either finds the head expired, and sends it, or may send new packets behind it (`Awaits.pass`), and
in both cases the head stays the head. `Steady.run` is the induction over any interleaving of the two. The
third duplicate sets the head back by the whole `RTO`, an `int`, so the unsigned comparison of the next pass
succeeds as soon as the clock has gone on (`expired_of_later`), and that pass is the one of
`Awaits.pass_expired`. `QueueInv.awaits` gives the start of it in any reachable state.
-/

namespace Bittorrent

variable {env : Env} {u u' : Uploads} {p : Int} {i s k : Nat} {rto : Int} {slot slot' : UploadSlot}
  {head head' : SentPacket} {log l : UploadLog}

/-! ## Time stamps -/

/-- `now` is after `stamp` on a clock that may wrap. -/
def Later (now stamp : Time) : Prop := 0 < (now - stamp).toInt

instance (now stamp : Time) : Decidable (Later now stamp) := inferInstanceAs (Decidable (_ < _))

theorem expired_of_later {now stamp : Time} (hrto : 0 ≤ rto) (hint : rto < 2 ^ 31)
    (h : Later now stamp) : expired now (stamp - BitVec.ofInt 64 rto) rto = true := by
  have hlimit : (BitVec.ofInt 64 rto).toNat = rto.toNat := by
    rw [BitVec.toNat_ofInt]
    omega
  have helapsed : now - (stamp - BitVec.ofInt 64 rto) = (now - stamp) + BitVec.ofInt 64 rto := by
    rw [BitVec.sub_eq_add_neg now, BitVec.neg_sub, ← BitVec.add_assoc, ← BitVec.sub_eq_add_neg]
  unfold Later at h
  rw [BitVec.toInt_eq_toNat_cond] at h
  rw [expired, helapsed, decide_eq_true_eq, BitVec.lt_def, BitVec.toNat_add, hlimit]
  have := (now - stamp).isLt
  split_ifs at h with hsign
  · omega
  · omega

/-! ## The slot -/

/-- The slot was told `s` last, and `k` times again since; `head` is packet `s + 1`, the first of its
queue, among at most 354 transmitted. -/
structure Awaits (s k : Nat) (head : SentPacket) (slot : UploadSlot) : Prop where
  first : slot.sentQueueHead.head? = some head
  seq : head.seq = s + 1
  lastAck : slot.lastAck = s
  dupAckCount : slot.dupAckCount = k
  issued : s + 1 ≤ slot.tailSeq
  bound : slot.tailSeq ≤ maxPacketPerChunk

theorem Awaits.queue (h : Awaits s k head slot) : ∃ rest, slot.sentQueueHead = head :: rest :=
  List.head?_eq_some_iff.mp h.first

theorem Awaits.toUnsigned_tail (h : Awaits s k head slot) : toUnsigned slot.tailSeq = slot.tailSeq := by
  have := h.bound
  rw [toUnsigned]
  simp only [maxPacketPerChunk] at this
  omega

/-- The head that the third duplicate leaves. -/
def SentPacket.setBack (rto : Int) (head : SentPacket) : SentPacket :=
  { head with timestamp := head.timestamp - BitVec.ofInt 64 rto }

theorem Awaits.takeAck (h : Awaits s k head slot) (hk : k < 3) (sm : Smoothing) (clk : Clock)
    (net : NetworkParams) : ∃ slot' acts, slot.takeAck sm s clk net = .ok (slot', net, acts) ∧
      (k < 2 → Awaits s (k + 1) head slot') ∧ (k = 2 → Awaits s 0 (head.setBack net.rto) slot') := by
  obtain ⟨rest, hqueue⟩ := h.queue
  have hseq := h.seq
  have hbound := h.bound
  have hissued := h.issued
  simp only [maxPacketPerChunk] at hbound
  have hpop : popAcked sm (clk 0) s slot.sentQueueHead net = .ok (head :: rest, net, 0) := by
    rw [hqueue, popAcked, if_neg (by omega)]
  have hwrap : wrap32 (s + 1) = s + 1 := Nat.mod_eq_of_lt (by omega)
  by_cases hthird : k + 1 ≥ 3
  · have hfast : fastRetransmit slot s net.rto (head :: rest) =
        .ok (head.setBack net.rto :: rest, 0) := by
      rw [fastRetransmit, if_pos h.lastAck, h.dupAckCount, if_pos hthird, hwrap]
      exact if_pos hseq
    simp only [UploadSlot.takeAck, hpop, hfast]
    exact ⟨_, _, rfl, fun hlt => absurd hthird (by omega), fun _ =>
      ⟨rfl, hseq, rfl, rfl, h.issued, h.bound⟩⟩
  · have hfast : fastRetransmit slot s net.rto (head :: rest) = .ok (head :: rest, k + 1) := by
      rw [fastRetransmit, if_pos h.lastAck, h.dupAckCount, if_neg hthird]
    simp only [UploadSlot.takeAck, hpop, hfast]
    exact ⟨_, _, rfl, fun _ => ⟨rfl, hseq, rfl, rfl, h.issued, h.bound⟩, fun he =>
      absurd hthird (by omega)⟩

theorem Awaits.stamp (h : Awaits s k head slot) (now : Time) :
    Awaits s k { head with timestamp := now } (slot.stamp now) := by
  obtain ⟨rest, hqueue⟩ := h.queue
  have hstamp : slot.stamp now =
      { slot with sentQueueHead := { head with timestamp := now } :: rest } := by
    rw [UploadSlot.stamp, hqueue]
  rw [hstamp]
  exact ⟨rfl, h.seq, h.lastAck, h.dupAckCount, h.issued, h.bound⟩

theorem Awaits.enqueue (h : Awaits s k head slot) (hroom : slot.tailSeq < maxPacketPerChunk) (now : Time) :
    Awaits s k head (slot.enqueue (slot.tailSeq + 1) now) := by
  obtain ⟨rest, hqueue⟩ := h.queue
  have htail : slot.sentQueueTail ≠ none := by
    intro hnone
    have hissued := h.issued
    rw [UploadSlot.tailSeq, hnone] at hissued
    exact absurd hissued (by simp)
  have hhead : (slot.enqueue (slot.tailSeq + 1) now).sentQueueHead.head? = some head := by
    simp [UploadSlot.enqueue, hqueue, htail]
  exact ⟨hhead, h.seq, h.lastAck, h.dupAckCount, h.issued.trans (Nat.le_succ _), hroom⟩

theorem Awaits.pass_expired (env : Env) (h : Awaits s k head slot) {pass : Pass} (p c : Int)
    (hexp : expired (pass.clk 0) head.timestamp rto = true) :
    slot.sendPass env p c pass rto =
      (((slot.stamp (pass.clk 1)).setWindow slot.window.timeout).stamp (pass.clk 2),
        [.windowTimeout, .logWindow 1, .transmitted p (s + 1) (chunkData env pass.stack c s) true]) := by
  obtain ⟨rest, hqueue⟩ := h.queue
  have hlt : s < maxPacketPerChunk := lt_of_lt_of_le h.issued h.bound
  have hcheck : slot.checkTimeout (pass.clk 0) (pass.clk 1) rto = (s + 1, slot.stamp (pass.clk 1)) := by
    rw [UploadSlot.checkTimeout, hqueue]
    simp only [hexp, if_true, h.seq]
  simp only [UploadSlot.sendPass, hcheck, UploadSlot.transmit, Nat.add_sub_cancel, if_pos hlt, if_true,
    stamp_window]
  rfl

theorem Awaits.pass_fresh (env : Env) (h : Awaits s k head slot) {pass : Pass} (p c : Int)
    (hexp : expired (pass.clk 0) head.timestamp rto = false) :
    Awaits s k head (slot.sendPass env p c pass rto).1 ∧
      ∀ q bytes again, .transmitted q (s + 1) bytes again ∉ (slot.sendPass env p c pass rto).2 := by
  obtain ⟨rest, hqueue⟩ := h.queue
  have hcheck : slot.checkTimeout (pass.clk 0) (pass.clk 1) rto = (0, slot) := by
    rw [UploadSlot.checkTimeout, hqueue]
    simp only [hexp, Bool.false_eq_true, if_false]
  have hissued := h.issued
  simp only [UploadSlot.sendPass, hcheck, if_true, h.toUnsigned_tail, UploadSlot.transmit,
    Bool.false_eq_true, if_false]
  split_ifs with hroom hlt
  · refine ⟨h.enqueue hlt (pass.clk 2), fun q bytes again hmem => ?_⟩
    have := (StreamAction.transmitted.inj (List.mem_singleton.mp hmem)).2.1
    omega
  · exact ⟨h, fun _ _ _ => List.not_mem_nil⟩
  · exact ⟨h, fun _ _ _ => List.not_mem_nil⟩

theorem Awaits.pass (env : Env) (h : Awaits s k head slot) (p c : Int) (pass : Pass) (rto : Int) :
    ∃ head', Awaits s k head' (slot.sendPass env p c pass rto).1 := by
  cases hexp : expired (pass.clk 0) head.timestamp rto with
  | false => exact ⟨head, (h.pass_fresh env p c hexp).1⟩
  | true =>
    rw [h.pass_expired env p c hexp]
    have hstamped := h.stamp (pass.clk 1)
    have hwindow : Awaits s k _ ((slot.stamp (pass.clk 1)).setWindow slot.window.timeout) :=
      ⟨hstamped.first, hstamped.seq, hstamped.lastAck, hstamped.dupAckCount, hstamped.issued,
        hstamped.bound⟩
    exact ⟨_, hwindow.stamp (pass.clk 2)⟩

/-! ## The peer's only slot -/

/-- `Awaits`, for the only slot of `p` in a state with the given `RTO`. -/
structure Steady (p : Int) (i s k : Nat) (rto : Int) (head : SentPacket) (u : Uploads) : Prop where
  only : OnlySlot p i u
  rto : u.net.rto = rto
  slot : ∃ slot, getUploadIndexById p u = some (i, slot) ∧ Awaits s k head slot

/-- What two states log to `p`: packet `s + 1` is not among it. -/
def Spares (p : Int) (s : Nat) (l : UploadLog) : Prop :=
  ∀ j bytes again, (j, .transmitted p (s + 1) bytes again) ∉ l

theorem Steady.ack (env : Env) (h : Steady p i s k rto head u) (hk : k < 3) (clk : Clock) :
    ∃ u' l, (uploadMachine env).step (.ack p s clk) u = .ok (u', l) ∧ Spares p s l ∧
      (k < 2 → Steady p i s (k + 1) rto head u') ∧ (k = 2 → Steady p i s 0 rto (head.setBack rto) u') := by
  obtain ⟨slot, hfound, hawaits⟩ := h.slot
  obtain ⟨slot', acts, htake, hearly, hthird⟩ := hawaits.takeAck hk env.smoothing clk u.net
  have hack := takeAck_ok htake
  have hlast : s ≠ maxPacketPerChunk := by
    have := hawaits.issued
    have := hawaits.bound
    omega
  have hid : slot'.uploadId = p := hack.uploadId.trans (getUploadIndexById_id hfound)
  have honly : OnlySlot p i (u.write i slot') :=
    h.only.congr (Table.map_set_key (getUploadIndexById_get hfound) hack.uploadId)
  have hfound' : getUploadIndexById p (u.write i slot') = some (i, slot') :=
    getUploadIndexById_write hfound hid
  refine ⟨u.write i slot', acts.map (i, ·), ?_, fun j bytes again hmem => ?_, fun hlt => ?_, fun he => ?_⟩
  · simp only [uploadMachine, inboundAck_eq hfound, htake]
    exact if_neg hlast
  · obtain ⟨act, hact, he⟩ := List.mem_map.mp hmem
    obtain ⟨-, rfl⟩ := Prod.mk.inj he
    rw [hack.acts] at hact
    split_ifs at hact <;> simp at hact
  · exact ⟨honly, h.rto, slot', hfound', hearly hlt⟩
  · exact ⟨honly, h.rto, slot', hfound', h.rto ▸ hthird he⟩

theorem sendLoop_net (pass : Nat → Pass) : ∀ (pairs : List (Int × Int)) (u : Uploads),
    (sendLoop env pass pairs u).1.net = u.net := by
  intro pairs
  induction pairs with
  | nil => exact fun _ => rfl
  | cons pc rest ih =>
    obtain ⟨p, c⟩ := pc
    intro u
    simp only [sendLoop, ih]
    cases hl : getUploadIndexById p u with
    | none => rw [sendDataPacket_none hl]
    | some r => rw [sendDataPacket_eq hl]; rfl

theorem sendDataPackets_net (env : Env) (pass : Nat → Pass) (u : Uploads) :
    (sendDataPackets env pass u).1.net = u.net := sendLoop_net pass (sendPairs u) u

theorem Steady.send (env : Env) (h : Steady p i s k rto head u) (hp : p ≠ idNull) (pass : Nat → Pass) :
    ∃ head', Steady p i s k rto head' (sendDataPackets env pass u).1 ∧
      ((∀ n, expired ((pass n).clk 0) head.timestamp rto = false) →
        head' = head ∧ Spares p s (sendDataPackets env pass u).2) := by
  obtain ⟨slot, hfound, hawaits⟩ := h.slot
  obtain ⟨honly, ⟨n, hslot, hlog⟩, hothers⟩ := h.only.sendDataPackets env hp hfound pass
  have hrto := (congrArg (·.rto) (sendDataPackets_net env pass u)).trans h.rto
  rw [h.rto] at hslot hlog
  cases hexp : expired ((pass n).clk 0) head.timestamp rto with
  | false =>
    obtain ⟨hkept, hspared⟩ := hawaits.pass_fresh env p slot.uploadChunkId hexp
    refine ⟨head, ⟨honly, hrto, _, hslot, hkept⟩, fun _ => ⟨rfl, fun j bytes again hmem => ?_⟩⟩
    obtain rfl := hothers _ _ _ _ hmem
    rw [← mem_slotLog, hlog] at hmem
    exact hspared _ _ _ hmem
  | true =>
    obtain ⟨head', hkept⟩ := hawaits.pass env p slot.uploadChunkId (pass n) rto
    exact ⟨head', ⟨honly, hrto, _, hslot, hkept⟩, fun hno => absurd (hno n) (by simp [hexp])⟩

/-! ## Runs of duplicates -/

/-- `k` times ACK `s` from `p`, and `send_data_packets` any number of times before, between and after. -/
inductive Duplicates (p : Int) (s : Nat) : Nat → List UploadEvent → Prop
  | nil : Duplicates p s 0 []
  | ack {k : Nat} {events : List UploadEvent} (clk : Clock) : Duplicates p s k events →
      Duplicates p s (k + 1) (.ack p s clk :: events)
  | send {k : Nat} {events : List UploadEvent} (pass : Nat → Pass) : Duplicates p s k events →
      Duplicates p s k (.send pass :: events)

theorem Spares.append (h : Spares p s log) (h' : Spares p s l) : Spares p s (log ++ l) :=
  fun j bytes again hmem => (List.mem_append.mp hmem).elim (h j bytes again) (h' j bytes again)

/-- Fewer than three duplicates leave the slot waiting, and without a timeout they leave it silent. -/
theorem Steady.run (env : Env) {events : List UploadEvent} (hp : p ≠ idNull) (hdups : Duplicates p s k events) :
    ∀ {m : Nat} {head : SentPacket} {u : Uploads}, m + k < 3 → Steady p i s m rto head u →
      ∃ u' l head', (uploadMachine env).run events u = .ok (u', l) ∧
        Steady p i s (m + k) rto head' u' ∧
        ((∀ pass, .send pass ∈ events → ∀ n, expired ((pass n).clk 0) head.timestamp rto = false) →
          Spares p s l) := by
  induction hdups with
  | nil => exact fun _ h => ⟨_, _, _, rfl, h, fun _ _ _ _ => List.not_mem_nil⟩
  | @ack k events clk hdups ih =>
    intro m head u hlt h
    obtain ⟨u₁, l₁, hs, hspared, hearly, -⟩ := h.ack env (by omega) clk
    obtain ⟨u₂, l₂, head', hr, hsteady, hrest⟩ := ih (m := m + 1) (by omega) (hearly (by omega))
    refine ⟨u₂, l₁ ++ l₂, head', Machine.run_cons hs hr, ?_, fun hno => hspared.append (hrest fun pass hmem =>
      hno pass (List.mem_cons_of_mem _ hmem))⟩
    rwa [show m + (k + 1) = m + 1 + k by omega]
  | send pass hdups ih =>
    intro m head u hlt h
    obtain ⟨head₁, hsteady₁, hquiet⟩ := h.send env hp pass
    obtain ⟨u₂, l₂, head', hr, hsteady, hrest⟩ := ih hlt hsteady₁
    refine ⟨u₂, _, head', Machine.run_cons rfl hr, hsteady, fun hno => ?_⟩
    obtain ⟨rfl, hspared⟩ := hquiet (hno pass List.mem_cons_self)
    exact hspared.append (hrest fun pass hmem => hno pass (List.mem_cons_of_mem _ hmem))

/-! ## The retransmission -/

/-- What `send_data_packets` does in the state `u`: it sends packet `s + 1` to `p` again and no other
packet to `p`, shrinks the window, and leaves the queue's numbers and size. -/
structure Retransmits (env : Env) (p : Int) (i s : Nat) (pass : Nat → Pass) (u : Uploads) : Prop where
  found : ∃ slot slot' n, u.slots[i]? = some slot ∧ (sendDataPackets env pass u).1.slots[i]? = some slot' ∧
    slotLog i (sendDataPackets env pass u).2 = [.windowTimeout, .logWindow 1,
      .transmitted p (s + 1) (chunkData env (pass n).stack slot.uploadChunkId s) true] ∧
    slot'.window.cwnds = 1 ∧ slot'.window.ccPolicy = .congestionAvoidance ∧
    slot'.seqs = slot.seqs ∧ slot'.sentQueueSize = slot.sentQueueSize
  others : ∀ j seq bytes again,
    (j, .transmitted p seq bytes again) ∈ (sendDataPackets env pass u).2 → j = i

theorem Steady.retransmits (h : Steady p i s k rto (head.setBack rto) u) (hp : p ≠ idNull) (hrto : 0 ≤ rto)
    (hint : rto < 2 ^ 31) {pass : Nat → Pass} (hlater : ∀ n, Later ((pass n).clk 0) head.timestamp) :
    Retransmits env p i s pass u := by
  obtain ⟨slot, hfound, hawaits⟩ := h.slot
  obtain ⟨-, ⟨n, hslot, hlog⟩, hothers⟩ := h.only.sendDataPackets env hp hfound pass
  have hpass := hawaits.pass_expired env p slot.uploadChunkId
    (expired_of_later hrto hint (hlater n))
  rw [h.rto, hpass] at hslot hlog
  refine ⟨⟨slot, _, n, getUploadIndexById_get hfound, getUploadIndexById_get hslot, hlog, ?_, ?_, ?_, ?_⟩,
    hothers⟩
  · rw [stamp_window]
    rfl
  · rw [stamp_window]
    rfl
  · rw [stamp_seqs]
    exact stamp_seqs ((pass n).clk 1)
  · rw [stamp_sentQueueSize]
    exact stamp_sentQueueSize ((pass n).clk 1)

theorem QueueInv.awaits {e : Epoch} (h : QueueInv slot e) (hid : slot.uploadId ≠ idNull)
    (hhead : slot.seqs.head? = some (s + 1)) (hlast : slot.lastAck = s) (hdup : slot.dupAckCount = k) :
    ∃ head, Awaits s k head slot := by
  obtain ⟨a, t, hout⟩ := h.active hid
  rw [UploadSlot.seqs, List.head?_map] at hhead
  obtain ⟨head, hfirst, hseq⟩ := Option.map_eq_some_iff.mp hhead
  have hmem : s + 1 ∈ slot.seqs :=
    hseq ▸ List.mem_map_of_mem (List.mem_of_mem_head? (Option.mem_def.mpr hfirst))
  have hissued := (hout.queue.mem_iff.mp hmem).2
  exact ⟨head, hfirst, hseq, hlast, hdup, hout.tail.symm ▸ hissued, hout.tail.symm ▸ hout.bound⟩

/-- From every reachable state whose only upload to `p` waits for packet `s + 1` and was not told `s`
again yet: after two duplicates, with `send_data_packets` anywhere between, a third one makes the next
`send_data_packets` send that packet again, as soon as time has gone on since the head's time stamp; and
fewer duplicates, without a timeout of the head, do not make the packet be sent. -/
theorem fast_retransmit {max : Nat} {unset : Nat → UnsetSlot}
    (h : (uploadMachine env).Reach (· = initUploads max unset) Machine.Any u log) (hp : p ≠ idNull)
    (honly : OnlySlot p i u) (hfound : getUploadIndexById p u = some (i, slot))
    (hhead : slot.seqs.head? = some (s + 1)) (hlast : slot.lastAck = s) (hdup : slot.dupAckCount = 0)
    (hrto : 0 ≤ u.net.rto) (hint : u.net.rto < 2 ^ 31) :
    (∀ events, Duplicates p s 2 events → ∃ u₂ l₂ head,
      (uploadMachine env).run events u = .ok (u₂, l₂) ∧
      (∃ slot₂, u₂.slots[i]? = some slot₂ ∧ slot₂.sentQueueHead.head? = some head ∧ head.seq = s + 1) ∧
      ∀ clk, ∃ u₃ l₃, inboundAck env p s clk u₂ = .ok (u₃, l₃) ∧
        ∀ pass, (∀ n, Later ((pass n).clk 0) head.timestamp) → Retransmits env p i s pass u₃) ∧
    ∀ k events head, k < 3 → Duplicates p s k events → slot.sentQueueHead.head? = some head →
      (∀ pass, .send pass ∈ events → ∀ n, expired ((pass n).clk 0) head.timestamp u.net.rto = false) →
      ∃ u' l, (uploadMachine env).run events u = .ok (u', l) ∧ Spares p s l := by
  have hget := getUploadIndexById_get hfound
  have hid : slot.uploadId ≠ idNull := (getUploadIndexById_id hfound).symm ▸ hp
  obtain ⟨head, hawaits⟩ := ((queueInv_reach h).1 i slot hget).awaits hid hhead hlast hdup
  have hsteady : Steady p i s 0 u.net.rto head u := ⟨honly, rfl, slot, hfound, hawaits⟩
  constructor
  · intro events hevents
    obtain ⟨u₂, l₂, head₂, hr, hsteady₂, -⟩ := hsteady.run env hp hevents (by decide)
    obtain ⟨slot₂, hfound₂, hawaits₂⟩ := hsteady₂.slot
    refine ⟨u₂, l₂, head₂, hr, ⟨slot₂, getUploadIndexById_get hfound₂, hawaits₂.first, hawaits₂.seq⟩,
      fun clk => ?_⟩
    obtain ⟨u₃, l₃, hs, -, -, hthird⟩ := hsteady₂.ack env (by decide) clk
    exact ⟨u₃, l₃, hs, fun pass hlater => (hthird rfl).retransmits hp hrto hint hlater⟩
  · intro k events head' hk hevents hfirst hno
    obtain rfl : head' = head := Option.some.inj (hfirst.symm.trans hawaits.first)
    obtain ⟨u', l, head'', hr, -, hspared⟩ := hsteady.run env hp hevents (by omega)
    exact ⟨u', l, hr, hspared hno⟩

/-- Peer 1's upload of chunk 0 with its first packet outstanding. -/
def sentUploads : Uploads where
  slots := [{
    uploadId := 1, uploadChunkId := 0, uploadLastTime := 0, sentQueueHead := [⟨1, 0⟩]
    sentQueueTail := some ⟨1, 0⟩, sentQueueSize := 1, lastAck := 0, dupAckCount := 0, window := .init }]
  net := ⟨800 * 1000, 200 * 1000, 1600 * 1000⟩

/-- ACK 0 three times, with a pass between, and time going on by one: packet 1 is sent again. -/
theorem fast_retransmit_first : ∃ u₂ l₂ u₃ l₃, (uploadMachine sampleEnv).run
      [.ack 1 0 fun _ => 0, .send fun _ => passAt 0, .ack 1 0 fun _ => 0] sentUploads = .ok (u₂, l₂) ∧
    inboundAck sampleEnv 1 0 (fun _ => 0) u₂ = .ok (u₃, l₃) ∧
    Retransmits sampleEnv 1 0 0 (fun _ => passAt 1) u₃ := by
  have hstart : (uploadMachine sampleEnv).Reach (· = initUploads 1 fun _ => unsetZero) Machine.Any
    (initUploads 1 fun _ => unsetZero) [] := .start rfl
  have hreach := hstart.runAny [.get 1 0 fun _ => 0, .send fun _ => passAt 0]
    (show _ = Except.ok (sentUploads, _) from rfl)
  have honly : OnlySlot 1 0 sentUploads := fun j other hj _ => by
    have hlt : j < 1 := (List.getElem?_eq_some_iff.mp hj).1
    omega
  obtain ⟨u₂, l₂, head, hr, ⟨slot₂, hslot₂, hhead, -⟩, hthird⟩ := (fast_retransmit hreach Int.one_ne_zero
    honly rfl (s := 0) rfl rfl rfl (by decide) (by decide)).1
    [.ack 1 0 fun _ => 0, .send fun _ => passAt 0, .ack 1 0 fun _ => 0] (.ack _ (.send _ (.ack _ .nil)))
  obtain ⟨u₃, l₃, hs, hretransmits⟩ := hthird fun _ => 0
  refine ⟨u₂, l₂, u₃, l₃, hr, hs, hretransmits _ fun _ => ?_⟩
  obtain ⟨rfl, rfl⟩ := Prod.mk.inj (Except.ok.inj hr)
  cases hslot₂
  cases hhead
  decide

end Bittorrent
