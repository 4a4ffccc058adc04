import Bittorrent.Upload.Bounds
import Bittorrent.Upload.StaleAck

/-!
# What congestion avoidance leaves behind

An ACK adds its count to `ack_counts` and lets the window grow by one at most, and `window_timeout`
shrinks the window but not `ack_counts`: either can leave a full window of packets over
(`control_ready_iff`, `timeout_ready_iff`), from which an ACK that acknowledges nothing makes the window
grow. Above half of `max_cwnds` the window grows without `max_cwnds` (`control_peak_iff`). In the runs
that never do the one, or the other, the window behaves as it should.

Each of the two results is an equivalence for one call and an invariant for the runs. The equivalences are
computations with one `Window`: in slow start every packet is spent at once, in congestion avoidance the sum
of the count and `ack_counts` is compared with the window, and the `unsigned` sums do not wrap within the
bounds of `Bounds`. For a run, `slot_invariant` reduces the step to the passes and the ACKs of one slot. The
passes are seen from outside as a change of the window by timeouts only (`PassEffect`), so that
`ready_invariant` and `peaked_invariant` have two cases each, a timeout and a `window_control`, and in each
the condition on the step says what the equivalence asks for.
-/

namespace Bittorrent

variable {env : Env} {u u' : Uploads} {p : Int} {i n : Nat} {slot slot' : UploadSlot} {e : Epoch}
  {w : Window} {log l : UploadLog}

/-! ## One call -/

/-- A `window_control` after which a full window of packets is left over. -/
def Window.Overfull (count : Nat) (w : Window) : Prop :=
  w.ccPolicy = .congestionAvoidance ∧ w.cwnds + 1 ≤ w.maxCwnds / 2 ∧ 2 * w.cwnds < w.ackCounts + count

/-- A `window_timeout` after which a full window of packets is left over. -/
def Window.Stocked (w : Window) : Prop := 2 ≤ w.maxCwnds ∧ 1 ≤ w.ackCounts

theorem control_ready_iff {count : Nat} (hgrown : w.cwnds + 1 < 2 ^ 32)
    (hcwnds : w.cwnds + count < 2 ^ 32) (hacks : w.ackCounts + count < 2 ^ 32) :
    (w.control count).1.Ready ↔ w.Overfull count := by
  have hwrap : ∀ x, x < 2 ^ 32 → wrap32 x = x := fun x hx => Nat.mod_eq_of_lt hx
  unfold Window.control Window.Ready Window.Overfull
  split
  · rename_i hpolicy
    simp [hpolicy]
  · rename_i hpolicy
    simp only [hwrap _ hgrown, hwrap _ hcwnds, hwrap _ hacks]
    split_ifs with hhalf hfull
    · simp only [hpolicy, true_and]
      omega
    · simp only [hpolicy, true_and]
      omega
    · simp only [hpolicy, true_and]
      omega

theorem timeout_ready_iff : w.timeout.Ready ↔ w.Stocked := by
  simp only [Window.Ready, Window.timeout, Window.Stocked, true_and]
  omega

/-- With no packet acknowledged a window grows exactly from a full window left over. -/
theorem control_zero_iff (hgrown : w.cwnds + 1 < 2 ^ 32) (hacks : w.ackCounts < 2 ^ 32) :
    (w.control 0).1.cwnds = w.cwnds ↔ ¬ w.Ready := by
  have hleft : wrap32 (w.ackCounts + 0) = w.ackCounts := Nat.mod_eq_of_lt hacks
  have hsame : wrap32 (w.cwnds + 0) = w.cwnds := Nat.mod_eq_of_lt (by omega)
  have hnext : wrap32 (w.cwnds + 1) = w.cwnds + 1 := Nat.mod_eq_of_lt hgrown
  unfold Window.control Window.Ready
  split
  · rename_i hpolicy
    simp only [hpolicy, hsame, reduceCtorEq, false_and, not_false_eq_true]
  · rename_i hpolicy
    simp only [hleft, hsame, hnext]
    split_ifs with hhalf hfull
    · simp [hpolicy, hhalf, hfull]
    · simp [hpolicy, hfull]
    · simp [hpolicy, hhalf]

/-- In congestion avoidance above half of the maximum, the count makes the window outgrow it. -/
def Window.Outgrows (count : Nat) (w : Window) : Prop :=
  w.ccPolicy = .congestionAvoidance ∧ w.maxCwnds / 2 < w.cwnds ∧ w.maxCwnds < w.cwnds + count

/-- `max_cwnds` keeps up with the window exactly if the count does not make it outgrow the maximum. -/
theorem control_peak_iff {count : Nat} (hpos : 1 ≤ w.cwnds) (hmax : w.cwnds ≤ w.maxCwnds)
    (hgrown : w.cwnds + 1 < 2 ^ 32) (hcwnds : w.cwnds + count < 2 ^ 32) :
    (w.control count).1.maxCwnds = max w.maxCwnds (w.control count).1.cwnds ↔ ¬ w.Outgrows count := by
  have hwrap : ∀ x, x < 2 ^ 32 → wrap32 x = x := fun x hx => Nat.mod_eq_of_lt hx
  unfold Window.control Window.Outgrows
  split
  · rename_i hpolicy
    simp [hpolicy, max_comm]
  · rename_i hpolicy
    simp only [hwrap _ hgrown, hwrap _ hcwnds]
    split_ifs with hhalf hfull
    · simp only [hpolicy, true_and]
      omega
    · simp only [hpolicy, true_and]
      omega
    · simp only [hpolicy, true_and]
      omega

/-- A window that is not logged has not changed. -/
theorem control_quiet (w : Window) (count : Nat) (h : (w.control count).2 = false) :
    (w.control count).1.cwnds = w.cwnds ∧ (w.control count).1.maxCwnds = w.maxCwnds := by
  unfold Window.control at h ⊢
  split at h
  · cases h
  · dsimp only at h ⊢
    split_ifs at h ⊢
    exact ⟨rfl, rfl⟩

/-! ## The passes of `send_data_packets` -/

/-- Passes change the window by timeouts only: it is the same and none is logged, or it is the window
after a timeout, which is logged with the size 1. -/
def PassEffect (slot : UploadSlot) (acts : List StreamAction) (slot' : UploadSlot) : Prop :=
  (slot'.window = slot.window ∧ .windowTimeout ∉ acts ∧
    ∀ e, (acts.foldl Epoch.next e).cwnd = e.cwnd ∧ (acts.foldl Epoch.next e).peak = e.peak) ∨
  (slot'.window = slot.window.timeout ∧ .windowTimeout ∈ acts ∧
    ∀ e, (acts.foldl Epoch.next e).cwnd = 1 ∧ (acts.foldl Epoch.next e).peak = max e.peak 1)

theorem PassEffect.refl (slot : UploadSlot) : PassEffect slot [] slot :=
  Or.inl ⟨rfl, List.not_mem_nil, fun _ => ⟨rfl, rfl⟩⟩

theorem PassEffect.trans {slot'' : UploadSlot} {acts acts' : List StreamAction}
    (h : PassEffect slot acts slot') (h' : PassEffect slot' acts' slot'') :
    PassEffect slot (acts ++ acts') slot'' := by
  unfold PassEffect
  simp only [List.foldl_append, List.mem_append]
  rcases h with ⟨hw, hno, he⟩ | ⟨hw, hyes, he⟩
  · rcases h' with ⟨hw', hno', he'⟩ | ⟨hw', hyes', he'⟩
    · exact Or.inl ⟨hw'.trans hw, not_or.mpr ⟨hno, hno'⟩, fun e =>
        ⟨(he' _).1.trans (he e).1, (he' _).2.trans (he e).2⟩⟩
    · exact Or.inr ⟨by rw [hw', hw], Or.inr hyes', fun e => ⟨(he' _).1, by rw [(he' _).2, (he e).2]⟩⟩
  · rcases h' with ⟨hw', hno', he'⟩ | ⟨hw', hyes', he'⟩
    · exact Or.inr ⟨hw'.trans hw, Or.inl hyes, fun e =>
        ⟨(he' _).1.trans (he e).1, (he' _).2.trans (he e).2⟩⟩
    · refine Or.inr ⟨by rw [hw', hw]; rfl, Or.inl hyes, fun e => ⟨(he' _).1, ?_⟩⟩
      rw [(he' _).2, (he e).2, max_assoc, max_self]

theorem transmit_effect (c : Int) (k : Nat) (timeout : Bool) (pass : Pass) (slot : UploadSlot) :
    PassEffect slot (slot.transmit env p c k timeout pass).2
      (slot.transmit env p c k timeout pass).1 := by
  unfold UploadSlot.transmit
  by_cases hk : k < maxPacketPerChunk
  · rw [if_pos hk]
    refine Or.inl ⟨?_, by simp, fun e => ?_⟩
    · cases timeout with
      | false => rfl
      | true => exact stamp_window (pass.clk 2)
    · cases timeout with
      | false => exact ⟨rfl, rfl⟩
      | true => exact ⟨rfl, rfl⟩
  · rw [if_neg hk]
    exact .refl slot

theorem sendPass_effect (c : Int) (pass : Pass) (rto : Int) (slot : UploadSlot) :
    PassEffect slot (slot.sendPass env p c pass rto).2 (slot.sendPass env p c pass rto).1 := by
  have hcheck : PassEffect slot [] (slot.checkTimeout (pass.clk 0) (pass.clk 1) rto).2 := by
    rcases checkTimeout_cases (pass.clk 0) (pass.clk 1) rto slot with h | ⟨_, _, -, h⟩
    · rw [h]
      exact .refl slot
    · rw [h]
      exact Or.inl ⟨stamp_window _, List.not_mem_nil, fun _ => ⟨rfl, rfl⟩⟩
  simp only [UploadSlot.sendPass]
  generalize slot.checkTimeout (pass.clk 0) (pass.clk 1) rto = r at hcheck ⊢
  obtain ⟨seq, slot₁⟩ := r
  split_ifs
  · exact hcheck.trans (transmit_effect _ _ _ _ _)
  · exact hcheck
  · have htimeout : PassEffect slot₁ [.windowTimeout, .logWindow 1]
        (slot₁.setWindow slot₁.window.timeout) :=
      Or.inr ⟨rfl, List.mem_cons_self, fun _ => ⟨rfl, rfl⟩⟩
    exact hcheck.trans (htimeout.trans (transmit_effect _ _ _ _ _))

theorem passes_effect (env : Env) (pass : Nat → Pass) (rto : Int) (pairs : List (Int × Int))
    (hid : slot.uploadId = p) :
    PassEffect slot (slot.passes env p pass rto pairs).2 (slot.passes env p pass rto pairs).1 :=
  (passes_path env pass rto pairs slot (fun c s k _ _ => sendPass_effect c (pass k) rto s) hid).invariant
    (I := fun s acts => PassEffect slot acts s) (fun _ _ _ _ => PassEffect.trans) (.refl slot)

/-! ## Runs that leave no full window over -/

/-- The event leaves no full window of packets over in slot `i`. -/
def NoLeftover (env : Env) (i : Nat) (u : Uploads) : UploadEvent → Prop
  | .ack peerId n _ => ∀ slot, getUploadIndexById peerId u = some (i, slot) →
      ¬ slot.window.Overfull (slot.ackCount n)
  | .send clk => ∀ slot, u.slots[i]? = some slot →
      (i, .windowTimeout) ∈ (sendDataPackets env clk u).2 → ¬ slot.window.Stocked
  | _ => True

theorem ready_invariant
    (h : (uploadMachine env).Reach (JustInit env i)
      (fun u _ ev => Untouched i u ev ∧ NoLeftover env i u ev) u log) :
    ∃ slot, u.slots[i]? = some slot ∧ (slot.uploadId ≠ idNull → ¬ slot.window.Ready) := by
  refine slot_invariant (P := fun slot _ => slot.uploadId ≠ idNull → ¬ slot.window.Ready)
    (fun _ _ _ => And.left) (fun u hu => ?_) (fun u log ev slot acts slot' hr hev hi hP hs => ?_) h
  · obtain ⟨slot, -, hi, hwindow, -⟩ := hu.found
    refine ⟨slot, hi, fun _ => ?_⟩
    rw [hwindow]
    exact fun hready => absurd hready.1 (by decide)
  · cases hs with
    | same => exact hP
    | ack hfound htake hn =>
      intro hne
      have hack := takeAck_ok htake
      have hbounded := window_bounded (fun _ _ _ => And.left) hr hi (hack.uploadId ▸ hne)
      have hle := hbounded.cwnds_le
      rw [hack.window, control_ready_iff (by omega) (hbounded.cwnds_fit _) (hbounded.ackCounts_fit _)]
      exact hev.2 slot hfound
    | last hfound htake => exact fun hne => absurd rfl hne
    | abort => exact fun hne => absurd rfl hne
    | send clk hfound hid =>
      intro _
      have hlog := (sendLoop_slot env clk (sendPairs u) hfound).2
      rcases passes_effect env clk u.net.rto (sendPairs u) (rfl : slot.uploadId = _) with
        ⟨hw, -⟩ | ⟨hw, htimeout, -⟩
      · rw [hw]
        exact hP hid
      · rw [hw, timeout_ready_iff]
        exact hev.2 slot hi (mem_slotLog.mp (hlog ▸ htimeout))

/-- Since `init_cwnd`, an ACK that acknowledges nothing leaves the window as it is exactly if no full
window of packets is left over. -/
theorem zero_ack_keeps_iff {Ok : Uploads → UploadLog → UploadEvent → Prop} {clk : Clock}
    (hok : ∀ u log ev, Ok u log ev → Untouched i u ev)
    (h : (uploadMachine env).Reach (JustInit env i) Ok u log) (hp : p ≠ idNull)
    (hfound : getUploadIndexById p u = some (i, slot))
    (hs : inboundAck env p n clk u = .ok (u', l)) (hzero : (i, .acked n 0) ∈ l) :
    (∃ slot', u'.slots[i]? = some slot' ∧ slot'.window.cwnds = slot.window.cwnds) ↔
      ¬ slot.window.Ready := by
  have hid : slot.uploadId ≠ idNull := (getUploadIndexById_id hfound).symm ▸ hp
  have hbounded := window_bounded hok h (getUploadIndexById_get hfound) hid
  have hle := hbounded.cwnds_le
  obtain ⟨slot', net, acts, htake, rfl, rfl⟩ := inboundAck_found hfound hs
  have hack := takeAck_ok htake
  have hcount : slot.ackCount n = 0 := by
    rw [hack.acts, ← mem_slotLog, slotLog_map, List.mem_append, List.mem_cons] at hzero
    rcases hzero with (hzero | hzero) | hzero
    · exact (StreamAction.acked.inj hzero).2.symm
    · split_ifs at hzero <;> simp at hzero
    · split_ifs at hzero <;> simp at hzero
  have hwindow : (if n = maxPacketPerChunk then slot'.abort else slot').window =
      (slot.window.control 0).1 := by
    rw [← hcount, ← hack.window]
    split_ifs <;> rfl
  rw [← control_zero_iff (by omega) (lt_of_le_of_lt (Nat.le_add_right _ _) (hbounded.ackCounts_fit 0)),
    ← hwindow]
  have hget : ({ u with net }.write i (if n = maxPacketPerChunk then slot'.abort else slot')).slots[i]? =
      some _ := Table.get_set_self (Table.lookup_lt hfound)
  rw [hget]
  simp only [Option.some.injEq, exists_eq_left']

/-- In a run that leaves no full window over, an ACK that acknowledges nothing new leaves the window as
it is. -/
theorem zero_ack_keeps_window {clk : Clock}
    (h : (uploadMachine env).Reach (JustInit env i)
      (fun u _ ev => Untouched i u ev ∧ NoLeftover env i u ev) u log)
    (hp : p ≠ idNull) (hfound : getUploadIndexById p u = some (i, slot))
    (hs : inboundAck env p n clk u = .ok (u', l)) (hzero : (i, .acked n 0) ∈ l) :
    ∃ slot', u'.slots[i]? = some slot' ∧ slot'.window.cwnds = slot.window.cwnds := by
  obtain ⟨slot₁, hi, hready⟩ := ready_invariant h
  rw [getUploadIndexById_get hfound] at hi
  cases hi
  exact (zero_ack_keeps_iff (fun _ _ _ => And.left) h hp hfound hs hzero).mpr
    (hready ((getUploadIndexById_id hfound).symm ▸ hp))

instance (count : Nat) (w : Window) : Decidable (w.Overfull count) :=
  inferInstanceAs (Decidable (_ ∧ _))

instance (w : Window) : Decidable w.Stocked := inferInstanceAs (Decidable (_ ∧ _))

/-- No slot at all would be left with a full window over. -/
def noLeftover (u : Uploads) : UploadEvent → Bool
  | .get .. => false
  | .ack _ n _ => u.slots.all fun slot => decide (¬ slot.window.Overfull (slot.ackCount n))
  | .send _ => u.slots.all fun slot => decide (¬ slot.window.Stocked)
  | _ => true

theorem noLeftover_holds (u : Uploads) (ev : UploadEvent) (h : noLeftover u ev = true) :
    Untouched i u ev ∧ NoLeftover env i u ev := by
  cases ev with
  | get => cases h
  | ack p n clk =>
    refine ⟨trivial, fun slot hfound => ?_⟩
    have hmem := List.mem_of_getElem? (getUploadIndexById_get hfound)
    exact of_decide_eq_true (List.all_eq_true.mp h slot hmem)
  | send pass =>
    exact ⟨trivial, fun slot hi _ => of_decide_eq_true (List.all_eq_true.mp h slot (List.mem_of_getElem? hi))⟩
  | clean now => exact ⟨trivial, trivial⟩
  | abort p => exact ⟨trivial, trivial⟩

/-- A duplicate ACK 4 in congestion avoidance. -/
theorem zero_ack_keeps_window_one : ∃ u l slot,
    inboundAck sampleEnv 1 4 (fun _ => 0) avoidingUploads = .ok (u, l) ∧ u.slots[0]? = some slot ∧
      slot.window.ccPolicy = .congestionAvoidance ∧ slot.window.cwnds = 2 := by
  have hholds : ∀ u ev, noLeftover u ev = true → Untouched 0 u ev ∧ NoLeftover sampleEnv 0 u ev := noLeftover_holds
  obtain ⟨log, -, hreach⟩ := avoidingUploads_reach hholds (by decide)
  obtain ⟨slot, hslot, hsame⟩ := zero_ack_keeps_window hreach Int.one_ne_zero rfl
    (show inboundAck sampleEnv 1 4 (fun _ => 0) avoidingUploads = .ok _ from rfl) (by decide)
  cases hslot
  exact ⟨_, _, _, rfl, rfl, rfl, hsame⟩

/-- A window of four times out with four packets outstanding; ACK 7 acknowledges them, makes the window
grow to two and leaves three packets over, and a duplicate makes it grow to three. -/
theorem zero_ack_grows : ∃ u log slot u' l slot',
    (uploadMachine sampleEnv).Reach (· = initUploads 1 fun _ => unsetZero) Machine.Any u log ∧
      getUploadIndexById 1 u = some (0, slot) ∧
      inboundAck sampleEnv 1 7 (fun _ => 0) u = .ok (u', l) ∧ (0, .acked 7 0) ∈ l ∧
      u'.slots[0]? = some slot' ∧ slot.window.cwnds = 2 ∧ slot'.window.cwnds = 3 :=
  ⟨_, _, _, _, _, _, .runAny [.get 1 0 fun _ => 0, .send fun _ => passAt 0, .ack 1 1 fun _ => 0,
    .send fun _ => passAt 0, .send fun _ => passAt 0, .ack 1 3 fun _ => 0, .send fun _ => passAt 0,
    .send fun _ => passAt 0, .send fun _ => passAt 0, .send fun _ => passAt 0, .send fun _ => passAt 1,
    .ack 1 7 fun _ => 0] (.start rfl) rfl, rfl, rfl, by decide, rfl, rfl, rfl⟩

/-! ## Runs in which the window does not outgrow its maximum -/

/-- The event does not make the window of slot `i` outgrow `max_cwnds`. -/
def NoOutgrowth (i : Nat) (u : Uploads) : UploadEvent → Prop
  | .ack peerId n _ => ∀ slot, getUploadIndexById peerId u = some (i, slot) →
      ¬ slot.window.Outgrows (slot.ackCount n)
  | _ => True

/-- `max_cwnds` is the largest window logged, and the window is the one logged last. -/
structure Peaked (w : Window) (e : Epoch) : Prop where
  peak : w.maxCwnds = e.peak
  current : w.cwnds = e.cwnd
  le : w.cwnds ≤ w.maxCwnds

theorem Peaked.acknowledged {acts : List StreamAction} {acked : Nat} (h : Peaked slot.window e)
    (hbounded : WindowBounded slot.window acked slot.ackCount)
    (hack : Acknowledged slot n slot' acts) (hno : ¬ slot.window.Outgrows (slot.ackCount n)) :
    Peaked slot'.window (acts.foldl Epoch.next e) := by
  have hle := hbounded.cwnds_le
  have hfit := hbounded.cwnds_fit n
  have hcontrol := (control_peak_iff hbounded.pos h.le (by omega) hfit).mpr hno
  have hquiet := control_quiet slot.window (slot.ackCount n)
  rw [← hack.window] at hcontrol hquiet
  have hpeak := h.peak
  have hcurrent := h.current
  rw [hack.acts]
  split
  · exact ⟨by rw [hcontrol, hpeak]; rfl, rfl, by omega⟩
  · rename_i hlogged
    obtain ⟨hsame, hsameMax⟩ := hquiet (by simpa using hlogged)
    exact ⟨hsameMax.trans hpeak, hsame.trans hcurrent, by omega⟩

theorem Peaked.passes {acts : List StreamAction} (h : Peaked slot.window e) (hpos : 1 ≤ slot.window.cwnds)
    (heffect : PassEffect slot acts slot') : Peaked slot'.window (acts.foldl Epoch.next e) := by
  rcases heffect with ⟨hw, -, he⟩ | ⟨hw, -, he⟩
  · rw [hw]
    exact ⟨h.peak.trans (he e).2.symm, h.current.trans (he e).1.symm, h.le⟩
  · rw [hw]
    have hpeak := h.peak
    have hle := h.le
    refine ⟨?_, (he e).1.symm, ?_⟩
    · rw [(he e).2]
      simp only [Window.timeout]
      omega
    · simp only [Window.timeout]
      omega

/-- The history of a slot since `init_cwnd` logged its window. -/
def epochSinceInit (acts : List StreamAction) : Epoch :=
  acts.foldl Epoch.next (Epoch.empty.next (.logWindow 1))

theorem peaked_invariant
    (h : (uploadMachine env).Reach (JustInit env i)
      (fun u _ ev => Untouched i u ev ∧ NoOutgrowth i u ev) u log) :
    ∃ slot, u.slots[i]? = some slot ∧
      (slot.uploadId ≠ idNull → Peaked slot.window (epochSinceInit (slotLog i log))) := by
  refine slot_invariant (P := fun slot acts => slot.uploadId ≠ idNull →
      Peaked slot.window (epochSinceInit acts))
    (fun _ _ _ => And.left) (fun u hu => ?_) (fun u log ev slot acts slot' hr hev hi hP hs => ?_) h
  · obtain ⟨slot, -, hi, hwindow, -⟩ := hu.found
    refine ⟨slot, hi, fun _ => ?_⟩
    rw [hwindow]
    exact ⟨rfl, rfl, le_refl 1⟩
  · rw [epochSinceInit, List.foldl_append]
    cases hs with
    | same => exact hP
    | ack hfound htake hn =>
      intro hne
      have hack := takeAck_ok htake
      have hne' := hack.uploadId ▸ hne
      exact (hP hne').acknowledged (window_bounded (fun _ _ _ => And.left) hr hi hne') hack
        (hev.2 slot hfound)
    | last hfound htake => exact fun hne => absurd rfl hne
    | abort => exact fun hne => absurd rfl hne
    | send clk hfound hid =>
      exact fun _ => (hP hid).passes (window_bounded (fun _ _ _ => And.left) hr hi hid).pos
        (passes_effect env clk u.net.rto (sendPairs u) rfl)

/-- In a run in which no ACK makes the window outgrow its maximum, `max_cwnds` is the largest value the
window has taken since `init_cwnd`. -/
theorem max_cwnds_eq_peak
    (h : (uploadMachine env).Reach (JustInit env i)
      (fun u _ ev => Untouched i u ev ∧ NoOutgrowth i u ev) u log)
    (hi : u.slots[i]? = some slot) (hid : slot.uploadId ≠ idNull) :
    Peaked slot.window (epoch i ((i, .logWindow 1) :: log)) := by
  obtain ⟨slot₁, hi₁, hpeaked⟩ := peaked_invariant h
  rw [hi] at hi₁
  cases hi₁
  rw [show (i, .logWindow 1) :: log = [(i, .logWindow 1)] ++ log from rfl, epoch_slotLog,
    show epoch i [(i, .logWindow 1)] = Epoch.empty.next (.logWindow 1) by simp [epoch]]
  exact hpeaked hid

instance (count : Nat) (w : Window) : Decidable (w.Outgrows count) :=
  inferInstanceAs (Decidable (_ ∧ _))

/-- No slot at all would outgrow its maximum. -/
def noOutgrowth (u : Uploads) : UploadEvent → Bool
  | .get .. => false
  | .ack _ n _ => u.slots.all fun slot => decide (¬ slot.window.Outgrows (slot.ackCount n))
  | _ => true

theorem noOutgrowth_holds (u : Uploads) (ev : UploadEvent) (h : noOutgrowth u ev = true) :
    Untouched i u ev ∧ NoOutgrowth i u ev := by
  cases ev with
  | get => cases h
  | ack p n clk =>
    refine ⟨trivial, fun slot hfound => ?_⟩
    have hmem := List.mem_of_getElem? (getUploadIndexById_get hfound)
    exact of_decide_eq_true (List.all_eq_true.mp h slot hmem)
  | send pass => exact ⟨trivial, trivial⟩
  | clean now => exact ⟨trivial, trivial⟩
  | abort p => exact ⟨trivial, trivial⟩

/-- The window has been four, and grows again from one in congestion avoidance. -/
theorem max_cwnds_eq_peak_two : ∃ log slot, getUploadIndexById 1 avoidingUploads = some (0, slot) ∧
    slot.window.cwnds = 2 ∧ slot.window.maxCwnds = 4 ∧
    Peaked slot.window (epoch 0 ((0, .logWindow 1) :: log)) := by
  obtain ⟨log, -, hreach⟩ := avoidingUploads_reach (noOutgrowth_holds (i := 0)) (by decide)
  exact ⟨log, _, rfl, rfl, rfl, max_cwnds_eq_peak hreach rfl Int.one_ne_zero⟩

/-- From a window of one after a timeout of the first packet, ACK 1 makes the window grow to two, and
the maximum stays one. -/
theorem max_cwnds_falls_behind : ∃ u log slot,
    (uploadMachine sampleEnv).Reach (JustInit sampleEnv 0) (fun u _ ev => Untouched 0 u ev) u log ∧
      getUploadIndexById 1 u = some (0, slot) ∧ slot.window.cwnds = 2 ∧ slot.window.maxCwnds = 1 := by
  have hasked : (uploadMachine sampleEnv).Reach (JustInit sampleEnv 0)
      (fun u _ ev => Untouched 0 u ev) _ [] := .start askedUploads_justInit
  have hreach := hasked.run (C := Untouched 0) (fun _ _ _ => id)
    [.send fun _ => passAt 0, .send fun _ => passAt 2000000, .ack 1 1 fun _ => 0]
    ⟨trivial, fun _ _ _ => ⟨trivial, fun _ _ _ => ⟨trivial, fun _ _ _ => trivial⟩⟩⟩ rfl
  exact ⟨_, _, _, hreach, rfl, rfl, rfl⟩

end Bittorrent
