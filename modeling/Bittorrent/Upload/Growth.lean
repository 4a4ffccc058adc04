import Bittorrent.Upload.Window
import Mathlib.Algebra.BigOperators.Intervals
import Mathlib.Tactic.Ring

/-!
# Window growth in congestion avoidance

The comment in `window_control` promises linear increase once the window has reached half of its
maximum: a window `w` grows by one for `w` acknowledged packets. The code counts packets below that
threshold and adds the whole count above it, so from a window `w` above the threshold `c`
acknowledged packets make `w + c` (`controls_above`).

Above the threshold a call of `window_control` adds its count to the window and leaves what was over where
it was (`control_above`), so calls add up (`grow_grow`) and only their sum matters. Linear growth from `w₀`
to `w₀ + c` needs `w₀ + (w₀ + 1) + ... ` packets, a sum over an interval; `growsLinearly_add` compares it
with the `c` packets there were, and `linear_growth_iff` is that comparison with the code's own start
values.
-/

namespace Bittorrent

variable {env : Env} {u : Uploads} {p : Int} {i : Nat} {slot : UploadSlot} {w : Window}
  {log : UploadLog}

/-! ## Linear growth -/

/-- From `w₀` to `w` by one for each full window of packets: `acked` packets were enough. -/
def GrowsLinearly (w₀ w acked : Nat) : Prop := ∑ k ∈ Finset.Ico w₀ w, k ≤ acked

instance (w₀ w acked : Nat) : Decidable (GrowsLinearly w₀ w acked) :=
  inferInstanceAs (Decidable (_ ≤ _))

theorem sum_Ico_add (w c : Nat) : (∑ k ∈ Finset.Ico w (w + c), k) * 2 + c = c * (2 * w + c) := by
  induction c with
  | zero => simp
  | succ c ih =>
    have htop : ∑ k ∈ Finset.Ico w (w + (c + 1)), k = (∑ k ∈ Finset.Ico w (w + c), k) + (w + c) :=
      Finset.sum_Ico_succ_top (Nat.le_add_right w c) _
    have hexpand : (c + 1) * (2 * w + (c + 1)) = c * (2 * w + c) + 2 * (w + c) + 1 := by ring
    rw [htop, hexpand, ← ih]
    ring

/-- Growth by the number of acknowledged packets is linear only as far as packets were left over. -/
theorem growsLinearly_add (w c left : Nat) :
    GrowsLinearly w (w + c) (c + left) ↔ c * (2 * w + c) ≤ 3 * c + 2 * left := by
  have hsum := sum_Ico_add w c
  unfold GrowsLinearly
  omega

/-! ## `window_control` above the threshold -/

/-- `window_control` for one count after another. -/
def windowControls (p : Int) (counts : List Nat) (u : Uploads) : Uploads :=
  counts.foldl (fun u count => (windowControl p count u).1) u

/-- In congestion avoidance, with a window above half of the maximum. -/
def Window.Above (w : Window) : Prop :=
  w.ccPolicy = .congestionAvoidance ∧ w.maxCwnds / 2 < w.cwnds

def Window.grow (count : Nat) (w : Window) : Window := { w with cwnds := w.cwnds + count }

theorem control_above {count : Nat} (h : w.Above) (hfit : w.cwnds + count < 2 ^ 32) :
    (w.control count).1 = w.grow count := by
  obtain ⟨hpolicy, habove⟩ := h
  have hwrap : wrap32 (w.cwnds + count) = w.cwnds + count := Nat.mod_eq_of_lt hfit
  rw [Window.control, hpolicy]
  simp only
  rw [if_neg (by omega), hwrap, Window.grow, hpolicy]

theorem Window.Above.grow (h : w.Above) (count : Nat) : (w.grow count).Above :=
  ⟨h.1, Nat.lt_add_right count h.2⟩

theorem grow_grow (a b : Nat) : (w.grow a).grow b = w.grow (a + b) := by
  simp only [Window.grow, Nat.add_assoc]

theorem windowControl_eq (h : getUploadIndexById p u = some (i, slot)) (count : Nat) :
    (windowControl p count u).1 = u.write i (slot.setWindow (slot.window.control count).1) := by
  rw [windowControl, change_eq h]

theorem controls_above (counts : List Nat) :
    ∀ {u : Uploads} {slot : UploadSlot}, getUploadIndexById p u = some (i, slot) →
      slot.window.Above → slot.window.cwnds + counts.sum < 2 ^ 32 →
      getUploadIndexById p (windowControls p counts u) =
        some (i, slot.setWindow (slot.window.grow counts.sum)) := by
  induction counts with
  | nil => intro u slot h _ _; exact h
  | cons count counts ih =>
    intro u slot h habove hfit
    rw [List.sum_cons] at hfit ⊢
    have hfound : getUploadIndexById p (windowControl p count u).1 =
        some (i, slot.setWindow (slot.window.grow count)) := by
      rw [windowControl_eq h, control_above habove (by omega)]
      exact getUploadIndexById_write h (show slot.uploadId = p from getUploadIndexById_id h)
    have hrest := ih hfound (habove.grow count) (by
      simp only [UploadSlot.setWindow, Window.grow]
      omega)
    rw [show (slot.setWindow (slot.window.grow count)).window = slot.window.grow count from rfl,
      grow_grow] at hrest
    exact hrest

/-- In a run the counts of one upload are the packets popped from its queue, and with them its
window stays far below the range of an `unsigned`. -/
theorem window_fits {max : Nat} {unset : Nat → UnsetSlot}
    (h : (uploadMachine env).Reach (· = initUploads max unset) (NoSecondGet p) u log)
    (hp : p ≠ idNull) (hfound : getUploadIndexById p u = some (i, slot)) :
    slot.window.cwnds + (maxPacketPerChunk - (epoch i log).acked) < 2 ^ 32 := by
  obtain ⟨hqueue, hwindow⟩ := (flowInv_reach h).1 i slot (getUploadIndexById_get hfound)
  have hid := getUploadIndexById_id hfound
  have hactive : slot.uploadId ≠ idNull := hid.symm ▸ hp
  have hearned := (hwindow hid hactive).earned
  obtain ⟨hsum, hle, -⟩ := hqueue.acked_le hactive
  simp only [maxPacketPerChunk] at hle ⊢
  omega

/-! ## When the growth is linear -/

/-- From a window `w₀` above half of the maximum, counts of sum `c` make it grow linearly exactly if
`c (2 w₀ + c - 3)` is at most twice what was left in `ack_counts`. -/
theorem linear_growth_iff (hfound : getUploadIndexById p u = some (i, slot))
    (habove : slot.window.Above) (counts : List Nat)
    (hfit : slot.window.cwnds + counts.sum < 2 ^ 32) :
    (∃ slot', getUploadIndexById p (windowControls p counts u) = some (i, slot') ∧
      GrowsLinearly slot.window.cwnds slot'.window.cwnds (counts.sum + slot.window.ackCounts)) ↔
    counts.sum * (2 * slot.window.cwnds + counts.sum) ≤
      3 * counts.sum + 2 * slot.window.ackCounts := by
  rw [← growsLinearly_add, controls_above counts hfound habove hfit]
  constructor
  · rintro ⟨slot', hslot', hgrows⟩
    cases hslot'
    exact hgrows
  · exact fun hgrows => ⟨_, rfl, hgrows⟩

/-- An upload whose first packet timed out: its window and its maximum are 1. -/
def timedOutUploads : Uploads where
  slots := [{
    uploadId := 1, uploadChunkId := 0, uploadLastTime := 0, sentQueueHead := [⟨1, 2000000⟩]
    sentQueueTail := some ⟨1, 0⟩, sentQueueSize := 1, lastAck := 0, dupAckCount := 0
    window := ⟨.congestionAvoidance, 1, 1, 0⟩ }]
  net := ⟨800 * 1000, 200 * 1000, 1600 * 1000⟩

theorem timedOutUploads_reach : ∃ log, (uploadMachine sampleEnv).Reach
    (· = initUploads 1 fun _ => unsetZero) Machine.Any timedOutUploads log := by
  have hstart : (uploadMachine sampleEnv).Reach (· = initUploads 1 fun _ => unsetZero) Machine.Any
    (initUploads 1 fun _ => unsetZero) [] := .start rfl
  exact ⟨_, hstart.runAny
    [.get 1 0 fun _ => 0, .send fun _ => passAt 0, .send fun _ => passAt 2000000] rfl⟩

/-- One acknowledged packet: from 1 to 2. -/
theorem linear_growth_iff_one : GrowsLinearly 1 2 1 := by
  obtain ⟨slot', hslot', hgrows⟩ := (linear_growth_iff (p := 1) (u := timedOutUploads) rfl
    ⟨rfl, by decide⟩ [1] (by decide)).mpr (by decide)
  cases hslot'
  exact hgrows

/-- One and then two acknowledged packets: from 1 to 4, which takes six. -/
theorem growth_outruns_acks : ∃ log slot slot',
    (uploadMachine sampleEnv).Reach (· = initUploads 1 fun _ => unsetZero) Machine.Any timedOutUploads
      log ∧ getUploadIndexById 1 timedOutUploads = some (0, slot) ∧ slot.window.Above ∧
    getUploadIndexById 1 (windowControls 1 [1, 2] timedOutUploads) = some (0, slot') ∧
    ¬ GrowsLinearly slot.window.cwnds slot'.window.cwnds ([1, 2].sum + slot.window.ackCounts) := by
  obtain ⟨log, hreach⟩ := timedOutUploads_reach
  exact ⟨log, _, _, hreach, rfl, ⟨rfl, by decide⟩, rfl, by decide⟩

end Bittorrent
