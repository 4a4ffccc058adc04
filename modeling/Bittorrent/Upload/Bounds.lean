import Bittorrent.Upload.Slot
import Bittorrent.Upload.Window

/-!
# Windows since `init_cwnd`

`JustInit` is a state in which the GET read last has reset the window of slot `i`; the runs from there
whose GETs do not touch the slot are those of one initialised upload, whatever its window held before.
Over them the window and what it counts are bounded by the packets acknowledged since
(`window_bounds`): an acknowledged packet is spent at most once, and a timeout keeps `ack_counts` but
gives up the window that was earned.

It is the invariant of `Window` again, but counted from `init_cwnd`: a window may be reset while its slot
has an upload under way, and then the epoch of the queue is longer than that of the window. So `BoundsInv`
has the queue agree with some history, and only asks that the packets acknowledged since are among the
acknowledged ones of that history. Each slot operation keeps it by the lemmas of the two modules
(`boundsInv_kept`), `slot_invariant` carries it over the run, and `window_bounded` is the arithmetic at the
end.
-/

namespace Bittorrent

variable {env : Env} {u u' : Uploads} {p c : Int} {i : Nat} {slot slot' : UploadSlot} {e e' : Epoch}
  {log l : UploadLog}

/-! ## The start of an upload -/

/-- The GET read last has reset the window of slot `i`. -/
def JustInit (env : Env) (i : Nat) (u : Uploads) : Prop :=
  ∃ max unset u₀ log₀ peerId chunkId clk,
    (uploadMachine env).Reach (· = initUploads max unset) Machine.Any u₀ log₀ ∧
      (i, .logWindow 1) ∈ (inboundGet peerId chunkId clk u₀).2 ∧
      u = (inboundGet peerId chunkId clk u₀).1

theorem JustInit.found (h : JustInit env i u) :
    ∃ slot e, u.slots[i]? = some slot ∧ slot.window = .init ∧ QueueInv slot e := by
  obtain ⟨max, unset, u₀, log₀, p, c, clk, hreach, hlogged, rfl⟩ := h
  have hstep : (uploadMachine env).step (.get p c clk) u₀ =
      .ok ((inboundGet p c clk u₀).1, (inboundGet p c clk u₀).2) := rfl
  have hqueues := (queueInv_reach (hreach.step trivial hstep)).1
  cases hl : getUploadIndexById idNull u₀ with
  | none =>
    rw [inboundGet_none hl] at hlogged
    cases hlogged
  | some r =>
    obtain ⟨index, slot₀⟩ := r
    obtain ⟨j, slot, hp, hget⟩ := inboundGet_found hl p c clk
    rw [hget] at hlogged hqueues ⊢
    obtain rfl : i = j := by simpa using hlogged
    have hslot := Table.get_set_self (b := slot.setWindow .init) (Table.lookup_lt hp)
    exact ⟨_, _, hslot, rfl, hqueues i _ hslot⟩

/-! ## The invariant -/

/-- The packets acknowledged since `init_cwnd` are among those of the upload, and the window was
earned by them. -/
def BoundsInv (slot : UploadSlot) (e : Epoch) : Prop :=
  (∃ whole, QueueInv slot whole ∧ e.acked ≤ whole.acked) ∧
    (slot.uploadId ≠ idNull →
      1 ≤ slot.window.cwnds ∧ slot.window.cwnds + slot.window.ackCounts ≤ e.acked + 1)

theorem BoundsInv.acked_le (h : BoundsInv slot e) (hid : slot.uploadId ≠ idNull) :
    e.acked + slot.seqs.length ≤ maxPacketPerChunk := by
  obtain ⟨whole, hqueue, hle⟩ := h.1
  obtain ⟨hsum, hbound, -⟩ := hqueue.acked_le hid
  omega

theorem BoundsInv.congr (h : BoundsInv slot e) (whole : Epoch → Epoch)
    (hqueue : ∀ w, QueueInv slot w → QueueInv slot' (whole w)) (hwhole : ∀ w, (whole w).acked = w.acked)
    (hid : slot'.uploadId = slot.uploadId) (hwindow : slot'.window = slot.window)
    (hacked : e'.acked = e.acked) : BoundsInv slot' e' := by
  obtain ⟨⟨w, hw, hle⟩, hbounds⟩ := h
  refine ⟨⟨whole w, hqueue w hw, by rw [hwhole, hacked]; exact hle⟩, fun hne => ?_⟩
  rw [hwindow, hacked]
  exact hbounds (hid ▸ hne)

theorem boundsInv_kept : Kept env BoundsInv (fun _ _ => True) fun _ _ _ => True where
  stamp slot now e h :=
    ⟨trivial, h.congr id (fun w hw => hw.stamp now) (fun _ => rfl) (stamp_uploadId now)
      (stamp_window now) rfl⟩
  timeout slot e h := by
    obtain ⟨⟨w, hw, hle⟩, hbounds⟩ := h
    refine ⟨actsOk_true _ e, ⟨w, hw.congr rfl rfl rfl rfl rfl rfl rfl rfl, hle⟩, fun hne => ?_⟩
    obtain ⟨hpos, hearned⟩ := hbounds hne
    refine ⟨le_refl 1, ?_⟩
    simp only [UploadSlot.setWindow, Window.timeout, List.foldl_cons, List.foldl_nil, Epoch.next]
    omega
  fresh slot c n stack now hid _ _ hn hlt e h :=
    ⟨actsOk_true _ e, h.congr (fun w => w.next (.transmitted slot.uploadId (n + 1) [] false))
      (fun w hw => (queueInv_fresh now hid hn hlt [] w hw).2) (fun _ => rfl) rfl rfl rfl⟩
  again slot head rest c stack _ _ _ _ _ e h := ⟨actsOk_true _ e, h⟩
  ack slot slot' seq clk net net' acts htake e h := by
    have hack := takeAck_ok htake
    have hnext : (acts.foldl Epoch.next e).acked = e.acked + slot.ackCount seq := by
      rw [hack.acts]
      split <;> rfl
    obtain ⟨w, hw, hle⟩ := h.1
    refine ⟨actsOk_true _ e, ⟨{ w with acked := w.acked + slot.ackCount seq },
      hw.acknowledged hack rfl rfl rfl, ?_⟩, fun hne => ?_⟩
    · rw [hnext]
      exact Nat.add_le_add_right hle _
    · rw [hack.uploadId] at hne
      obtain ⟨hpos, hearned⟩ := h.2 hne
      have hbound := h.acked_le hne
      have hcount := ackCount_add slot seq
      have hroom : e.acked + slot.ackCount seq ≤ maxPacketPerChunk := by omega
      obtain ⟨hgrow, hearned', -⟩ := control_bounds hpos hearned hroom
      rw [hnext, hack.window]
      exact ⟨hpos.trans hgrow, hearned'⟩
  abort slot e h :=
    ⟨actsOk_true _ e, ⟨Epoch.empty, Or.inl ⟨rfl, rfl, rfl, rfl⟩, le_refl 0⟩, fun hne => absurd rfl hne⟩

/-! ## Runs -/

theorem boundsInv_reach {Ok : Uploads → UploadLog → UploadEvent → Prop}
    (hok : ∀ u log ev, Ok u log ev → Untouched i u ev)
    (h : (uploadMachine env).Reach (JustInit env i) Ok u log) :
    ∃ slot, u.slots[i]? = some slot ∧ BoundsInv slot (epoch i log) := by
  refine boundsInv_kept.run hok (fun _ _ _ _ _ _ _ _ => trivial) (fun u hu => ?_) h
  obtain ⟨slot, w, hi, hwindow, hqueue⟩ := hu.found
  refine ⟨slot, hi, ⟨w, hqueue, Nat.zero_le _⟩, fun _ => ?_⟩
  rw [hwindow]
  exact ⟨le_refl 1, le_refl 1⟩

/-- What the window of an upload is bounded by, `acked` packets having been acknowledged since
`init_cwnd`; `next` is what an ACK may acknowledge more. -/
structure WindowBounded (w : Window) (acked : Nat) (next : Nat → Nat) : Prop where
  pos : 1 ≤ w.cwnds
  earned : w.cwnds - 1 + w.ackCounts ≤ acked
  total : acked ≤ maxPacketPerChunk
  cwnds_le : w.cwnds ≤ 355
  cwnds_fit : ∀ n, w.cwnds + next n < 2 ^ 32
  ackCounts_fit : ∀ n, w.ackCounts + next n < 2 ^ 32

theorem window_bounded {Ok : Uploads → UploadLog → UploadEvent → Prop}
    (hok : ∀ u log ev, Ok u log ev → Untouched i u ev)
    (h : (uploadMachine env).Reach (JustInit env i) Ok u log) (hi : u.slots[i]? = some slot)
    (hid : slot.uploadId ≠ idNull) : WindowBounded slot.window (epoch i log).acked slot.ackCount := by
  obtain ⟨slot₁, hi₁, hinv⟩ := boundsInv_reach hok h
  rw [hi] at hi₁
  cases hi₁
  obtain ⟨hpos, hearned⟩ := hinv.2 hid
  have hacked := hinv.acked_le hid
  have hcount := fun n => ackCount_add slot n
  simp only [maxPacketPerChunk] at hacked
  refine ⟨hpos, by omega, by simp only [maxPacketPerChunk]; omega, by omega, fun n => ?_, fun n => ?_⟩
  · have := hcount n
    omega
  · have := hcount n
    omega

/-- In every run since its window was initialised, the window of an upload is bounded by the packets
acknowledged, no sum of `window_control` wraps, and `get_cwnd_size` is the window. -/
theorem window_bounds
    (h : (uploadMachine env).Reach (JustInit env i) (fun u _ ev => Untouched i u ev) u log)
    (hi : u.slots[i]? = some slot) (hid : slot.uploadId ≠ idNull) :
    WindowBounded slot.window (epoch i log).acked slot.ackCount ∧
      (getUploadIndexById slot.uploadId u = some (i, slot) →
        getCwndSize slot.uploadId u = slot.window.cwnds) := by
  have hbounded := window_bounded (fun _ _ _ => id) h hi hid
  have hle := hbounded.cwnds_le
  refine ⟨hbounded, fun hfound => ?_⟩
  rw [getCwndSize, read_eq hfound]
  exact Int.bmod_eq_of_le (by omega) (by omega)

/-- Peer 1 asked for chunk 0. -/
def askedUploads : Uploads := (inboundGet 1 0 (fun _ => 0) (initUploads 1 fun _ => unsetZero)).1

theorem askedUploads_justInit : JustInit sampleEnv 0 askedUploads :=
  ⟨1, _, _, _, 1, 0, fun _ => 0, .start rfl, by decide, rfl⟩

/-- Three packets in slow start, a timeout of the fourth one, and its ACK. -/
def avoidingRun : List UploadEvent :=
  [.send fun _ => passAt 0, .ack 1 1 fun _ => 0, .send fun _ => passAt 0, .send fun _ => passAt 0,
    .ack 1 3 fun _ => 0, .send fun _ => passAt 0, .send fun _ => passAt 2000000, .ack 1 4 fun _ => 2000000]

/-- The upload after that, in congestion avoidance. -/
def avoidingUploads : Uploads where
  slots := [{
    uploadId := 1, uploadChunkId := 0, uploadLastTime := 2000000, sentQueueHead := []
    sentQueueTail := some ⟨4, 0⟩, sentQueueSize := 0, lastAck := 4, dupAckCount := 0
    window := ⟨.congestionAvoidance, 2, 4, 0⟩ }]
  net := ⟨0, 0, 0⟩

/-- It is reached under any condition that its steps meet. -/
theorem avoidingUploads_reach {C : Uploads → UploadEvent → Prop} {c : Uploads → UploadEvent → Bool}
    (hc : ∀ u ev, c u ev = true → C u ev)
    (hrun : (uploadMachine sampleEnv).checks c avoidingRun askedUploads = true) :
    ∃ log, (epoch 0 log).acked = 4 ∧ (uploadMachine sampleEnv).Reach (JustInit sampleEnv 0)
      (fun u _ ev => C u ev) avoidingUploads log := by
  refine ⟨_, ?_, (Machine.Reach.start askedUploads_justInit).run (C := C) (fun _ _ _ => id)
    avoidingRun (Machine.holds_of_checks hc _ _ hrun) rfl⟩
  rfl

/-- The event is no GET. -/
def notGet (_ : Uploads) : UploadEvent → Bool
  | .get .. => false
  | _ => true

theorem untouched_of_notGet (ev : UploadEvent) (h : notGet u ev = true) : Untouched i u ev := by
  cases ev with
  | get => cases h
  | _ => trivial

/-- Four packets acknowledged, and a window of two. -/
theorem window_bounds_one : ∃ log slot, getUploadIndexById 1 avoidingUploads = some (0, slot) ∧
    (epoch 0 log).acked = 4 ∧ getCwndSize 1 avoidingUploads = 2 ∧
    WindowBounded slot.window (epoch 0 log).acked slot.ackCount := by
  obtain ⟨log, hlog, hreach⟩ := avoidingUploads_reach (C := Untouched 0) (c := notGet)
    (fun _ => untouched_of_notGet) (by decide)
  obtain ⟨hbounded, hsize⟩ := window_bounds hreach rfl Int.one_ne_zero
  exact ⟨log, _, rfl, hlog, hsize rfl, hbounded⟩

end Bittorrent
