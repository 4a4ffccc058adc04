import Bittorrent.Upload.Queue

/-!
# Flow control

The window of an upload follows its acknowledgements, so it never wraps (`WindowInv`), and a packet
is transmitted for the first time only while fewer packets are outstanding than the window allows
(`RoomFor`). A second GET would reset the window of an upload that is active; the runs here have
none from the peer they are about.

The bound behind everything is that a window is earned: `cwnds + ackCounts` is at most one more than the
packets acknowledged since the GET (`WindowInv.earned`). A count that `receive_ack` pops goes to one of the
two, what the window grows by in congestion avoidance below the threshold is taken from `ack_counts`, and a
timeout only lowers the left side. As at most 354 packets are acknowledged, no `unsigned` sum wraps and the
`int` conversion in front of the comparison of `send_data_packets` is exact (`WindowInv.toInt32_cwnds`); so
the comparison is the one between the queue and the window, which is `RoomFor`. That the queue never
outgrows the largest window since the GET then follows from its last first transmission.
-/

namespace Bittorrent

variable {env : Env} {u u' : Uploads} {p q : Int} {i : Nat} {slot slot' : UploadSlot} {e : Epoch}
  {log : UploadLog}

/-! ## The invariant -/

/-- The window of an active upload, its history, and what is outstanding. -/
structure WindowInv (slot : UploadSlot) (e : Epoch) : Prop where
  pos : 1 ≤ slot.window.cwnds
  earned : slot.window.cwnds + slot.window.ackCounts ≤ e.acked + 1
  current : e.cwnd = slot.window.cwnds
  peak : slot.window.cwnds ≤ e.peak
  outstanding : slot.seqs.length ≤ e.peak
  steady : e.timeouts = 0 → slot.seqs.length ≤ slot.window.cwnds

/-- The queue invariant, and for an upload to `p` the window invariant. -/
def FlowInv (p : Int) (slot : UploadSlot) (e : Epoch) : Prop :=
  QueueInv slot e ∧ (slot.uploadId = p → slot.uploadId ≠ idNull → WindowInv slot e)

/-- A first transmission to `p` finds fewer packets outstanding than the window allows. -/
def RoomFor (p : Int) (e : Epoch) : StreamAction → Prop
  | .transmitted peerId _ _ false => peerId = p → e.fresh.length - e.acked < e.cwnd
  | _ => True

theorem WindowInv.congr (h : WindowInv slot e) (hwindow : slot'.window = slot.window)
    (hseqs : slot'.seqs = slot.seqs) : WindowInv slot' e :=
  ⟨hwindow ▸ h.pos, hwindow ▸ h.earned, hwindow ▸ h.current, hwindow ▸ h.peak,
    hseqs ▸ h.outstanding, by rw [hseqs, hwindow]; exact h.steady⟩

/-! ## `window_control` -/

/-- A window that did not outgrow its acknowledgements does not wrap; it only grows, and a change
is logged. -/
theorem control_bounds {w : Window} {acked count : Nat} (hpos : 1 ≤ w.cwnds)
    (hearned : w.cwnds + w.ackCounts ≤ acked + 1) (hbound : acked + count ≤ maxPacketPerChunk) :
    w.cwnds ≤ (w.control count).1.cwnds ∧
      (w.control count).1.cwnds + (w.control count).1.ackCounts ≤ acked + count + 1 ∧
      ((w.control count).2 = false → (w.control count).1.cwnds = w.cwnds) := by
  simp only [maxPacketPerChunk] at hbound
  have hwrap : ∀ n, n ≤ 356 → wrap32 n = n := fun n hn => Nat.mod_eq_of_lt (by omega)
  unfold Window.control
  split
  · simp only [hwrap (w.cwnds + count) (by omega)]
    refine ⟨by omega, by omega, fun h => absurd h (by decide)⟩
  · simp only [hwrap (w.ackCounts + count) (by omega), hwrap (w.cwnds + 1) (by omega),
      hwrap (w.cwnds + count) (by omega)]
    split_ifs with hhalf hfull
    · refine ⟨by simp only; omega, by simp only; omega, fun h => absurd h (by decide)⟩
    · exact ⟨le_refl _, by simp only; omega, fun _ => rfl⟩
    · refine ⟨by simp only; omega, by simp only; omega, fun h => absurd h (by decide)⟩

/-! ## Each slot operation keeps it -/

theorem QueueInv.acked_le (h : QueueInv slot e) (hid : slot.uploadId ≠ idNull) :
    e.acked + slot.seqs.length = e.fresh.length ∧ e.fresh.length ≤ maxPacketPerChunk ∧
      slot.sentQueueSize = slot.seqs.length := by
  obtain ⟨a, t, hout⟩ := h.active hid
  have hlen := hout.queue.length
  have hle := hout.queue.le
  rw [hout.fresh_length, hout.acked, hout.size, hlen]
  exact ⟨by omega, hout.bound, by omega⟩

theorem ackCount_add (slot : UploadSlot) (seq : Nat) :
    slot.ackCount seq + (slot.unacked seq).length = slot.seqs.length := by
  rw [UploadSlot.ackCount, UploadSlot.unacked, ← List.length_append, List.takeWhile_append_dropWhile]

theorem WindowInv.acknowledged {seq : Nat} {acts : List StreamAction} (h : WindowInv slot e)
    (hack : Acknowledged slot seq slot' acts)
    (hbound : e.acked + slot.ackCount seq ≤ maxPacketPerChunk) :
    WindowInv slot' (acts.foldl Epoch.next e) := by
  obtain ⟨hgrow, hearned, hquiet⟩ := control_bounds h.pos h.earned hbound
  have hlen : slot'.seqs.length ≤ slot.seqs.length := by
    rw [hack.seqs, ← ackCount_add slot seq]
    exact Nat.le_add_left _ _
  rw [← hack.window] at hgrow hearned hquiet
  have hcurrent := h.current
  have hpeak := h.peak
  have hout := h.outstanding
  have hsteady := h.steady
  rw [hack.acts]
  split
  · simp only [List.foldl_cons, List.foldl_nil, Epoch.next]
    exact ⟨h.pos.trans hgrow, hearned, rfl, le_max_right _ _, by simp only; omega,
      fun h0 => by have := hsteady h0; omega⟩
  · rename_i hlogged
    have hsame := hquiet (by simpa using hlogged)
    simp only [List.foldl_cons, List.foldl_nil, Epoch.next]
    exact ⟨h.pos.trans hgrow, hearned, by simp only; omega, by simp only; omega,
      by simp only; omega, fun h0 => by have := hsteady h0; omega⟩

theorem WindowInv.toInt32_cwnds (h : WindowInv slot e) (hbound : e.acked ≤ maxPacketPerChunk) :
    toInt32 slot.window.cwnds = slot.window.cwnds := by
  have hearned := h.earned
  simp only [maxPacketPerChunk] at hbound
  exact Int.bmod_eq_of_le (by omega) (by omega)

theorem WindowInv.enqueue (h : WindowInv slot e) {seq : Nat} (now : Time) (bytes : List UInt8)
    (hseqs : (slot.enqueue seq now).seqs = slot.seqs ++ [seq])
    (hroom : slot.seqs.length < slot.window.cwnds) :
    WindowInv (slot.enqueue seq now) (e.next (.transmitted p seq bytes false)) := by
  have hpeak := h.peak
  refine ⟨h.pos, h.earned, h.current, h.peak, ?_, fun _ => ?_⟩
  · rw [hseqs, List.length_append, List.length_singleton]
    exact hroom.trans_le hpeak
  · rw [hseqs, List.length_append, List.length_singleton]
    exact hroom

theorem flowInv_kept (p : Int) : Kept env (FlowInv p) (RoomFor p) fun _ _ _ => True where
  stamp slot now e h := by
    refine ⟨trivial, h.1.stamp now, fun hid hne => ?_⟩
    rw [stamp_uploadId] at hid hne
    exact (h.2 hid hne).congr (stamp_window now) (stamp_seqs now)
  timeout slot e h := by
    refine ⟨⟨trivial, trivial, trivial⟩, h.1.congr rfl rfl rfl rfl rfl rfl rfl rfl, fun hid hne => ?_⟩
    have hw := h.2 hid hne
    have hearned := hw.earned
    have hpos := hw.pos
    refine ⟨le_refl 1, ?_, rfl, le_max_right _ _, hw.outstanding.trans (le_max_left _ _), ?_⟩
    · simp only [UploadSlot.setWindow, Window.timeout, List.foldl_cons, List.foldl_nil, Epoch.next]
      omega
    · intro h0
      simp only [List.foldl_cons, List.foldl_nil, Epoch.next] at h0
      omega
  fresh slot c n stack now hid _ hroom hn hlt e h := by
    obtain ⟨hqueue, hwindow⟩ := h
    obtain ⟨-, hqueue'⟩ := queueInv_fresh now hid hn hlt (chunkData env stack c n) e hqueue
    obtain ⟨hsum, hle, hsize⟩ := hqueue.acked_le hid
    have hlast : slot.uploadId = p → slot.seqs.length < slot.window.cwnds := by
      intro hp
      have := (hwindow hp hid).toInt32_cwnds (by omega)
      omega
    refine ⟨⟨fun hp => ?_, trivial⟩, hqueue', fun hp hne => ?_⟩
    · rw [(hwindow hp hid).current]
      have := hlast hp
      omega
    · obtain ⟨a, t, hout⟩ := hqueue.active hid
      exact (hwindow hp hne).enqueue (p := slot.uploadId) now (chunkData env stack c n)
        (enqueue_seqs now hout.queue_of_tail) (hlast hp)
  again slot head rest c stack hid _ hhead hseq hlt e h := ⟨⟨trivial, trivial⟩, h⟩
  ack slot slot' seq clk net net' acts htake e h := by
    obtain ⟨hqueue, hwindow⟩ := h
    have hack := takeAck_ok htake
    have hkept : Kept env QueueInv QueueStep fun _ _ _ => True := queueInv_kept
    obtain ⟨-, hqueue'⟩ := hkept.ack _ _ _ _ _ _ _ htake e hqueue
    refine ⟨?_, hqueue', fun hp hne => ?_⟩
    · rw [hack.acts]
      split
      · exact ⟨trivial, trivial, trivial⟩
      · exact ⟨trivial, trivial⟩
    · rw [hack.uploadId] at hp hne
      obtain ⟨hsum, hle, -⟩ := hqueue.acked_le hne
      have hcount := ackCount_add slot seq
      exact (hwindow hp hne).acknowledged hack (by omega)
  abort slot e h :=
    ⟨⟨trivial, trivial⟩, Or.inl ⟨rfl, rfl, rfl, rfl⟩, fun _ hne => absurd rfl hne⟩

/-! ## Runs -/

/-- A GET comes from `p` only while `p` has no active upload. -/
def NoSecondGet (p : Int) (u : Uploads) (_ : UploadLog) : UploadEvent → Prop
  | .get peerId _ _ => peerId = p → getUploadIndexById p u = none
  | _ => True

theorem inboundGet_new (hfree : getUploadIndexById idNull u = some (i, slot))
    (hnone : getUploadIndexById p u = none) (c : Int) (clk : Clock) :
    inboundGet p c clk u = (u.write i ((slot.start p c (clk 0)).setWindow .init),
      [.started p c, .logWindow 1].map (i, ·)) := by
  have hnew : getUploadIndexById p (u.write i (slot.start p c (clk 0))) =
      some (i, slot.start p c (clk 0)) := Table.lookup_set_new hnone (Table.lookup_lt hfree) rfl
  rw [inboundGet_eq hfree, initCwnd, change_eq hnew, write_write]
  rfl

theorem flowInv_get (h : Good (FlowInv p) (RoomFor p) u log) {q c : Int} {clk : Clock}
    (hok : q = p → getUploadIndexById p u = none) :
    Good (FlowInv p) (RoomFor p) (inboundGet q c clk u).1
      (log ++ (inboundGet q c clk u).2) := by
  by_cases hq : q = p ∧ p ≠ idNull
  · obtain ⟨rfl, hp⟩ := hq
    cases hl : getUploadIndexById idNull u with
    | none =>
      rw [inboundGet_none hl, List.append_nil]
      exact h
    | some r =>
      obtain ⟨i, slot⟩ := r
      rw [inboundGet_new hl (hok rfl)]
      refine h.write u.net (getUploadIndexById_get hl) fun e he => ?_
      have hfree := getUploadIndexById_id hl
      have hstart := he.1.start (p := q) hfree c (clk 0)
      have hnil : slot.seqs = [] := by
        rcases he.1 with ⟨-, hnil, -⟩ | ⟨hne, -⟩
        · rw [UploadSlot.seqs, hnil]
          rfl
        · exact absurd hfree hne
      have hlen : ((slot.start q c (clk 0)).setWindow .init).seqs.length = 0 :=
        congrArg List.length hnil
      refine ⟨⟨trivial, trivial, trivial⟩, hstart.congr rfl rfl rfl rfl rfl rfl rfl rfl,
        fun _ _ => ⟨le_refl 1, le_refl 1, rfl, le_refl 1, ?_, fun _ => ?_⟩⟩
      · rw [hlen]
        exact Nat.zero_le _
      · rw [hlen]
        exact Nat.zero_le _
  · have hother : ∀ {slot : UploadSlot}, slot.uploadId = q → slot.uploadId = p →
        ¬ slot.uploadId ≠ idNull := fun h1 h2 h3 => hq ⟨h1.symm.trans h2, h2 ▸ h3⟩
    refine h.inboundGet clk (fun slot hfree e he => ?_) fun slot hid e he => ?_
    · exact ⟨⟨trivial, trivial⟩, he.1.start hfree c (clk 0), fun h1 h2 => absurd h2 (hother rfl h1)⟩
    · exact ⟨⟨trivial, trivial⟩, he.1.congr rfl rfl rfl rfl rfl rfl rfl rfl,
        fun h1 h2 => absurd h2 (hother hid h1)⟩

theorem flowInv_reach {max : Nat} {unset : Nat → UnsetSlot}
    (h : (uploadMachine env).Reach (· = initUploads max unset) (NoSecondGet p) u log) :
    Good (FlowInv p) (RoomFor p) u log := by
  refine h.invariant (fun s hs => ?_) fun s log ev s' l _ hI hok hs => ?_
  · subst hs
    exact good_initUploads fun _ hfree hnil hnone =>
      ⟨Or.inl ⟨hfree, hnil, hnone, rfl⟩, fun _ hne => absurd hfree hne⟩
  · refine (flowInv_kept p).step hI (fun _ _ => pairs_any s) (fun q c clk he => ?_) hs
    subst he
    exact flowInv_get hI hok

/-- The uploads to `p`: the window logged last is the current one, the queue is what was transmitted
and not acknowledged, and it never outgrows the largest window of the upload, nor the current one
as long as no timeout has shrunk it. -/
def FlowControlled (p : Int) (u : Uploads) (log : UploadLog) : Prop :=
  ∀ i slot, u.slots[i]? = some slot → slot.uploadId = p → slot.uploadId ≠ idNull →
    (epoch i log).cwnd = slot.window.cwnds ∧
      (epoch i log).acked + slot.seqs.length = (epoch i log).fresh.length ∧
      slot.seqs.length ≤ (epoch i log).peak ∧
      ((epoch i log).timeouts = 0 → slot.seqs.length ≤ slot.window.cwnds)

/-- Outstanding packets never outnumber the window size. -/
theorem outstanding_le_window {max : Nat} {unset : Nat → UnsetSlot}
    (h : (uploadMachine env).Reach (· = initUploads max unset) (NoSecondGet p) u log) :
    FlowControlled p u log ∧ Always (fun pre a => RoomFor p (epoch a.1 pre) a.2) log := by
  obtain ⟨hslots, hlog⟩ := flowInv_reach h
  refine ⟨fun i slot hi hid hne => ?_, hlog⟩
  obtain ⟨hqueue, hwindow⟩ := hslots i slot hi
  have hw := hwindow hid hne
  exact ⟨hw.current, (hqueue.acked_le hne).1, hw.outstanding, hw.steady⟩

/-- One packet acknowledged, then two packets in a window of two. -/
theorem outstanding_le_window_two : ∃ u log, getQueueSize 1 u = 2 ∧ getCwndSize 1 u = 2 ∧
    FlowControlled 1 u log ∧ Always (fun pre a => RoomFor 1 (epoch a.1 pre) a.2) log := by
  have hstart : (uploadMachine sampleEnv).Reach (· = initUploads 1 fun _ => unsetZero) (NoSecondGet 1)
    (initUploads 1 fun _ => unsetZero) [] := .start rfl
  refine ⟨_, _, ?_, ?_, outstanding_le_window (hstart.run (C := fun u ev => NoSecondGet 1 u [] ev)
    (fun _ _ ev hev => by cases ev <;> exact hev)
    [.get 1 0 fun _ => 0, .send fun _ => passAt 0, .ack 1 1 fun _ => 0, .send fun _ => passAt 0,
      .send fun _ => passAt 0] ?_ rfl)⟩
  · rfl
  · decide
  · exact ⟨fun _ => rfl, fun _ _ _ => ⟨trivial, fun _ _ _ => ⟨trivial, fun _ _ _ => ⟨trivial,
      fun _ _ _ => ⟨trivial, fun _ _ _ => trivial⟩⟩⟩⟩⟩

end Bittorrent
