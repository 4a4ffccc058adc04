import Bittorrent.Upload.Queue

/-!
# Acknowledgements from an earlier upload

An ACK carries no chunk: one of an earlier upload to the same peer is read against the present one.
`AckSound` says what it must not do, namely end an upload with packets left to transmit, or touch
the queue or the window with a number that was not transmitted yet. The ACK case compares the number
only with 354, so it does both unless the queue is empty (`ack_sound_iff`).

The iff has two directions and one idea. With a queue `a + 1, ..., t`, an ACK above `t` empties it
(`Outstanding.unacked_above`), which is wrong exactly when there was something in it; it then grows the
window, unless nothing was popped and no earlier packets were left over (`control_zero_le`). An ACK up to
`t` was transmitted in this upload and does what it should by the queue invariant. The end of the upload is
separate, since it is decided by the number 354 alone. That the window arrays hold `unsigned` values is
needed for the comparison of the windows before and after, and holds whatever they held at the start
(`inRange_reach`).
-/

namespace Bittorrent

variable {env : Env} {u u' : Uploads} {p : Int} {i n : Nat} {slot slot' : UploadSlot} {e : Epoch}
  {w : Window} {log l : UploadLog}

/-! ## Windows within range -/

/-- The three fields of a window are values of an `unsigned`. -/
structure Window.InRange (w : Window) : Prop where
  cwnds : w.cwnds < 2 ^ 32
  maxCwnds : w.maxCwnds < 2 ^ 32
  ackCounts : w.ackCounts < 2 ^ 32

/-- In congestion avoidance, with enough packets left over from earlier ACKs for the next growth. -/
def Window.Ready (w : Window) : Prop :=
  w.ccPolicy = .congestionAvoidance ∧ w.cwnds ≤ w.maxCwnds / 2 ∧ w.cwnds ≤ w.ackCounts

theorem wrap32_lt (n : Nat) : wrap32 n < 2 ^ 32 := Nat.mod_lt n (Nat.two_pow_pos 32)

theorem control_inRange (h : w.InRange) (count : Nat) : (w.control count).1.InRange := by
  obtain ⟨hcwnds, hmax, hacks⟩ := h
  have hleft := wrap32_lt (w.ackCounts + count)
  unfold Window.control
  split
  · exact ⟨wrap32_lt _, max_lt (wrap32_lt _) hmax, hacks⟩
  · dsimp only
    split_ifs
    · refine ⟨wrap32_lt _, hmax, ?_⟩
      simp only
      omega
    · exact ⟨hcwnds, hmax, hleft⟩
    · exact ⟨wrap32_lt _, hmax, hacks⟩

/-- With no packet acknowledged a window grows only from what earlier ACKs left over. -/
theorem control_zero_le (h : w.InRange) : (w.control 0).1.cwnds ≤ w.cwnds ↔ ¬ w.Ready := by
  obtain ⟨hcwnds, hmax, hacks⟩ := h
  have hleft : wrap32 (w.ackCounts + 0) = w.ackCounts := Nat.mod_eq_of_lt hacks
  have hsame : wrap32 (w.cwnds + 0) = w.cwnds := Nat.mod_eq_of_lt hcwnds
  unfold Window.control Window.Ready
  split
  · rename_i hpolicy
    simp only [hpolicy, hsame, reduceCtorEq, false_and, not_false_eq_true, le_refl]
  · rename_i hpolicy
    simp only [hleft, hsame]
    split_ifs with hhalf hfull
    · have hgrown : wrap32 (w.cwnds + 1) = w.cwnds + 1 := Nat.mod_eq_of_lt (by omega)
      simp only [hgrown, hpolicy, hhalf, hfull, and_self, not_true_eq_false, iff_false]
      omega
    · simp [hpolicy, hhalf, hfull]
    · simp [hpolicy, hhalf]

theorem timeout_inRange (h : w.InRange) : w.timeout.InRange :=
  ⟨show 1 < 2 ^ 32 by decide, h.maxCwnds, h.ackCounts⟩

theorem init_inRange : Window.init.InRange := ⟨by decide, by decide, by decide⟩

theorem unsetZero_inRange : unsetZero.window.InRange := ⟨by decide, by decide, by decide⟩

/-- The window of a slot is in range, whatever the slot's history. -/
def WindowInRange (slot : UploadSlot) (_ : Epoch) : Prop := slot.window.InRange

theorem inRange_kept : Kept env WindowInRange (fun _ _ => True) fun _ _ _ => True where
  stamp slot now e h := by
    refine ⟨trivial, ?_⟩
    rw [WindowInRange, stamp_window]
    exact h
  timeout slot e h := ⟨actsOk_true _ e, timeout_inRange h⟩
  fresh slot c n stack now _ _ _ _ _ e h := ⟨actsOk_true _ e, h⟩
  again slot head rest c stack _ _ _ _ _ e h := ⟨actsOk_true _ e, h⟩
  ack slot slot' seq clk net net' acts htake e h := by
    refine ⟨actsOk_true _ e, ?_⟩
    rw [WindowInRange, (takeAck_ok htake).window]
    exact control_inRange h _
  abort slot e h := ⟨actsOk_true _ e, h⟩

/-- The window arrays hold `unsigned` values, whatever they held before. -/
theorem inRange_reach {max : Nat} {unset : Nat → UnsetSlot}
    {Ok : Uploads → UploadLog → UploadEvent → Prop} (hunset : ∀ i, (unset i).window.InRange)
    (h : (uploadMachine env).Reach (· = initUploads max unset) Ok u log) :
    Good WindowInRange (fun _ _ => True) u log := by
  refine h.invariant (fun s hs => ?_) fun s log ev s' l _ hI _ hs => ?_
  · subst hs
    refine ⟨fun i slot hi => ?_, always_nil⟩
    obtain ⟨j, -, rfl⟩ := List.mem_map.mp (List.mem_of_getElem? hi)
    exact hunset j
  · refine inRange_kept.step hI (fun _ _ => pairs_any s) (fun p c clk _ => ?_) hs
    exact hI.inboundGet clk (fun slot _ e he => ⟨actsOk_true _ e, he⟩)
      fun slot _ e _ => ⟨actsOk_true _ e, init_inRange⟩

/-! ## What an ACK may do -/

/-- The highest sequence number transmitted in an upload, 0 before the first packet. -/
def Epoch.highest (e : Epoch) : Nat := e.fresh.foldr max 0

theorem foldr_max_range' (t m : Nat) : (List.range' 1 t).foldr max m = max m t := by
  induction t generalizing m with
  | zero => simp
  | succ t ih =>
    rw [List.range'_concat, List.foldr_append, List.foldr_cons, List.foldr_nil, ih]
    omega

theorem Outstanding.highest {a t : Nat} (h : Outstanding slot e a t) : e.highest = t := by
  rw [Epoch.highest, h.fresh, foldr_max_range', Nat.zero_max]

/-- What the ACK `n` may do to the upload in a slot with the history `e`: end it only if all its
packets were transmitted; and with a number above those transmitted, remove nothing from the sent
queue and not make the window grow. -/
structure AckSound (e : Epoch) (n : Nat) (slot slot' : UploadSlot) : Prop where
  ends : slot'.uploadId = idNull → ∀ seq, 1 ≤ seq → seq ≤ maxPacketPerChunk → seq ∈ e.fresh
  above : e.highest < n → slot'.seqs = slot.seqs ∧ slot'.window.cwnds ≤ slot.window.cwnds

theorem takeAck_lastAck {sm : Smoothing} {clk : Clock} {net net' : NetworkParams}
    {acts : List StreamAction} (h : slot.takeAck sm n clk net = .ok (slot', net', acts)) :
    slot'.lastAck = n := by
  unfold UploadSlot.takeAck at h
  split at h
  · cases h
  · split at h
    · cases h
    · cases h
      rfl

theorem inboundAck_slots {clk : Clock} (hfound : getUploadIndexById p u = some (i, slot))
    (h : inboundAck env p n clk u = .ok (u', l)) : ∃ slot' acts, Acknowledged slot n slot' acts ∧
      slot'.lastAck = n ∧
      u'.slots = u.slots.set i (if n = maxPacketPerChunk then slot'.abort else slot') := by
  obtain ⟨slot', net, acts, htake, rfl, -⟩ := inboundAck_found hfound h
  exact ⟨slot', acts, takeAck_ok htake, takeAck_lastAck htake, rfl⟩

theorem Outstanding.unacked_above {a t : Nat} (h : Outstanding slot e a t) (hn : t < n) :
    slot.unacked n = [] ∧ slot.ackCount n = slot.seqs.length := by
  have hack := h.queue.ack n
  have hle := h.queue.le
  have hcount := h.queue.takeWhile_length n
  refine ⟨hack.eq_nil_iff.mpr (by omega), ?_⟩
  rw [UploadSlot.ackCount, hcount, h.queue.length]
  omega

theorem ackSound_iff {a t : Nat} {acts : List StreamAction} (hout : Outstanding slot e a t)
    (hid : slot.uploadId ≠ idNull) (hrange : slot.window.InRange)
    (hack : Acknowledged slot n slot' acts) :
    AckSound e n slot (if n = maxPacketPerChunk then slot'.abort else slot') ↔
      n ≤ e.highest ∨ (n ≠ maxPacketPerChunk ∧ slot.seqs = [] ∧ ¬ slot.window.Ready) := by
  have hhighest := hout.highest
  have hbound := hout.bound
  have hall : maxPacketPerChunk ≤ t ↔
      ∀ seq, 1 ≤ seq → seq ≤ maxPacketPerChunk → seq ∈ e.fresh := by
    simp only [hout.fresh, List.mem_range'_1]
    constructor
    · intro hle seq h1 h2
      omega
    · intro hseq
      have := hseq maxPacketPerChunk (by decide) (le_refl _)
      omega
  rw [hhighest]
  by_cases hle : n ≤ t
  · -- the number was transmitted: the ACK that ends the upload comes after all its packets
    refine iff_of_true ⟨fun hended => ?_, fun hlt => absurd hlt (by omega)⟩ (Or.inl hle)
    split_ifs at hended with hn
    · exact hall.mp (hn ▸ hle)
    · exact absurd (hack.uploadId.symm.trans hended) hid
  · obtain ⟨hnil, hcount⟩ := hout.unacked_above (by omega : t < n)
    have hlt : e.highest < n := by omega
    by_cases hn : n = maxPacketPerChunk
    · rw [if_pos hn]
      refine iff_of_false (fun hsound => ?_) (by omega)
      have := hall.mpr (hsound.ends rfl)
      omega
    · rw [if_neg hn]
      constructor
      · intro hsound
        obtain ⟨hseqs, hwindow⟩ := hsound.above hlt
        rw [hack.seqs, hnil] at hseqs
        rw [hack.window, hcount, ← hseqs, List.length_nil, control_zero_le hrange] at hwindow
        exact Or.inr ⟨hn, hseqs.symm, hwindow⟩
      · rintro (hle' | ⟨-, hseqs, hready⟩)
        · exact absurd hle' hle
        · refine ⟨fun hended => absurd (hack.uploadId.symm.trans hended) hid, fun _ => ⟨?_, ?_⟩⟩
          · rw [hack.seqs, hnil, hseqs]
          · rw [hack.window, hcount, hseqs, List.length_nil]
            exact (control_zero_le hrange).mpr hready

/-! ## Runs -/

/-- In every reachable state an ACK that returns treats the upload it is read against as it must
exactly if its number was transmitted in it, or is not 354 and finds the queue empty and the window
with nothing left over to grow from. -/
theorem ack_sound_iff {max : Nat} {unset : Nat → UnsetSlot} {clk : Clock}
    (hunset : ∀ i, (unset i).window.InRange)
    (h : (uploadMachine env).Reach (· = initUploads max unset) Machine.Any u log)
    (hp : p ≠ idNull) (hfound : getUploadIndexById p u = some (i, slot))
    (hack : inboundAck env p n clk u = .ok (u', l)) :
    (∃ slot', u'.slots[i]? = some slot' ∧ AckSound (epoch i log) n slot slot') ↔
      n ≤ (epoch i log).highest ∨
        (n ≠ maxPacketPerChunk ∧ slot.seqs = [] ∧ ¬ slot.window.Ready) := by
  have hget := getUploadIndexById_get hfound
  have hid : slot.uploadId ≠ idNull := (getUploadIndexById_id hfound).symm ▸ hp
  obtain ⟨a, t, hout⟩ := ((queueInv_reach h).1 i slot hget).active hid
  obtain ⟨slot', acts, hacked, -, hslots⟩ := inboundAck_slots hfound hack
  have hslot' := congrArg (·[i]?) hslots
  rw [Table.get_set_self (Table.lookup_lt hfound)] at hslot'
  rw [← ackSound_iff hout hid ((inRange_reach hunset h).1 i slot hget) hacked, hslot']
  constructor
  · rintro ⟨_, hsome, hsound⟩
    cases hsome
    exact hsound
  · exact fun hsound => ⟨_, rfl, hsound⟩

/-- ACK 1 of the packet in flight. -/
theorem ack_sound_iff_one : ∃ u log slot u' slot',
    (uploadMachine sampleEnv).Reach (· = initUploads 1 fun _ => unsetZero) Machine.Any u log ∧
    getUploadIndexById 1 u = some (0, slot) ∧ slot.seqs = [1] ∧
    (∃ l, inboundAck sampleEnv 1 1 (fun _ => 0) u = .ok (u', l)) ∧ u'.slots[0]? = some slot' ∧
    AckSound (epoch 0 log) 1 slot slot' := by
  have hstart : (uploadMachine sampleEnv).Reach (· = initUploads 1 fun _ => unsetZero) Machine.Any
    (initUploads 1 fun _ => unsetZero) [] := .start rfl
  have hreach := hstart.runAny [.get 1 0 fun _ => 0, .send fun _ => passAt 0] rfl
  refine ⟨_, _, _, _, _, hreach, rfl, rfl, ⟨_, rfl⟩, rfl, ?_⟩
  obtain ⟨slot', hslot', hsound⟩ := (ack_sound_iff (fun _ => unsetZero_inRange) hreach Int.one_ne_zero rfl
    (show inboundAck sampleEnv 1 1 (fun _ => 0) _ = .ok _ from rfl)).mpr (Or.inl (by decide))
  cases hslot'
  exact hsound

/-- With packet 1 in flight, an ACK 354 of an earlier upload ends the upload, and an ACK 5 empties
its queue. -/
theorem stale_acks_unsound : ∃ u log slot u₁ slot₁ u₂ slot₂,
    (uploadMachine sampleEnv).Reach (· = initUploads 1 fun _ => unsetZero) Machine.Any u log ∧
    getUploadIndexById 1 u = some (0, slot) ∧
    ((∃ l, inboundAck sampleEnv 1 354 (fun _ => 0) u = .ok (u₁, l)) ∧ u₁.slots[0]? = some slot₁ ∧
      ¬ AckSound (epoch 0 log) 354 slot slot₁) ∧
    ((∃ l, inboundAck sampleEnv 1 5 (fun _ => 0) u = .ok (u₂, l)) ∧ u₂.slots[0]? = some slot₂ ∧
      ¬ AckSound (epoch 0 log) 5 slot slot₂) := by
  have hstart : (uploadMachine sampleEnv).Reach (· = initUploads 1 fun _ => unsetZero) Machine.Any
    (initUploads 1 fun _ => unsetZero) [] := .start rfl
  have hreach := hstart.runAny [.get 1 0 fun _ => 0, .send fun _ => passAt 0] rfl
  refine ⟨_, _, _, _, _, _, _, hreach, rfl, ⟨⟨_, rfl⟩, rfl, fun hsound => ?_⟩, ⟨_, rfl⟩, rfl,
    fun hsound => ?_⟩
  · have hmem := hsound.ends rfl 354 (by decide) (by decide)
    exact absurd hmem (by decide)
  · have hseqs := (hsound.above (by decide)).1
    exact absurd hseqs (by decide)

end Bittorrent
