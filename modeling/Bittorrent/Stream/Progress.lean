import Bittorrent.Stream.Underway

/-!
# A stream can always be finished

`Leads` is what a channel can do from a state on while time goes on. From a state in which no packet was
taken twice it leads to the end of the stream, packet by packet: the sender is told what the receiver holds
(`Underway.catchUp`); after `RTO` it transmits the next packet, as a retransmission or for the first time,
and the packet and its ACK are delivered (`Underway.round`). So no loss and no order of packets is fatal, as
long as the estimates are those of samples in bounds; a second copy that is taken always is
(`stream_recoverable`). What is verified at the end is the sender's chunk (`completed_verified`).

The measure is the number of packets the receiver holds. When the sender has been told of them, one round
raises it by one: a pass after `RTO`, the delivery of the packet, and that of its ACK. The pass transmits
the packet wanted whatever happened before (`Serving.supply`), and the receiver takes it since it is the
next one (`Underway.data`). `Underway.finish` is the induction on what is left. In the other direction a
repeat is never made good, because the bytes appended once more stay in the buffer (`Underway.stuck`), so
the condition is exact. The verdict at the end is in the log from then on and was already settled by
`stream_cases`.
-/

namespace Bittorrent

variable {k : Link} {c : Int} {s s' s'' : System} {log log' log'' l : SystemLog} {hash : Hash}
  {i a t n r age : Nat} {S : Int} {now later : Time}

/-! ## Time -/

/-- Every clock reading of the event is `now`. -/
def StreamEvent.At (now : Time) : StreamEvent → Prop
  | .send pass => ∀ n, (pass n).clk = fun _ => now
  | .ack _ _ clk => clk = fun _ => now
  | .data _ _ _ clk => clk = fun _ => now

/-- The channel can take the stream from one state to another while the clock, which may wrap, does not go
back. -/
inductive Leads (k : Link) (now : Time) (s : System) (log : SystemLog) : Time → System → SystemLog → Prop
  | refl : Leads k now s log now s log
  | tail {at' later : Time} {s' s'' : System} {log' l : SystemLog} {ev : StreamEvent} :
      Leads k now s log at' s' log' → 0 ≤ (later - at').toInt → ev.At later → Delivered k s' log' ev →
      (streamMachine k).step ev s' = .ok (s'', l) → Leads k now s log later s'' (log' ++ l)

theorem Leads.trans {mid : Time} (h : Leads k now s log mid s' log') (h' : Leads k mid s' log' later s'' log'') :
    Leads k now s log later s'' log'' := by
  induction h' with
  | refl => exact h
  | tail _ hle hat hok hs ih => exact ih.tail hle hat hok hs

theorem Leads.single {ev : StreamEvent} (hat : ev.At now) (hok : Delivered k s log ev)
    (hs : (streamMachine k).step ev s = .ok (s', l)) : Leads k now s log now s' (log ++ l) :=
  Leads.refl.tail (by rw [BitVec.sub_self]; decide) hat hok hs

/-- What it leads to is reached. -/
theorem Leads.reach {Init : System → Prop} (h : (streamMachine k).Reach Init (Delivered k) s log)
    (hleads : Leads k now s log later s' log') : (streamMachine k).Reach Init (Delivered k) s' log' := by
  induction hleads with
  | refl => exact h
  | tail _ _ _ hok hs ih => exact ih.step hok hs

theorem timeoutAt_later {rto : Int} (h0 : 0 ≤ rto) (h1 : rto < 2 ^ 31) (now : Time) :
    0 ≤ (timeoutAt now rto - now).toInt := by
  have hage : (now - now).toNat ≤ 0 := by simp
  have hsub := timeoutAt_sub h0 h1 (by decide) hage
  rw [BitVec.toInt_eq_toNat_cond]
  split_ifs <;> omega

theorem sampleOk_of_recent {stamp : Time} (hS : S ≤ 107374182) (h : ((now - stamp).toNat : Int) ≤ S) :
    SampleOk S now stamp := by
  have hsample : newRTT now stamp = (now - stamp).toNat := by
    rw [newRTT, BitVec.toInt_eq_toNat_cond, BitVec.toNat_setWidth]
    split_ifs <;> omega
  rw [SampleOk, hsample]
  exact ⟨Int.natCast_nonneg _, h⟩

/-! ## Rounds -/

theorem Underway.acknowledge (h : Underway k c hash i a t n 0 s log) (hlt : a < n)
    (hsm : k.sender.smoothing.Within S) (hS : S ≤ 107374182) (htimely : Timely S age now k.receiverId s.sender)
    (hsample : ∀ packet ∈ waiting k.receiverId s.sender, packet.seq = n → SampleOk S now packet.timestamp) :
    ∃ s' log', Leads k now s log now s' log' ∧ Underway k c hash i n t n 0 s' log' ∧
      Timely S age now k.receiverId s'.sender := by
  have hne : n ≠ maxPacketPerChunk := h.lt.ne
  obtain ⟨u, up, hinbound, hserving, htimely'⟩ := h.serving.takes hsm hS hlt h.issued hne htimely hsample
  have hsent : AckSent k log n := h.newest.resolve_left (by omega)
  have hok : Delivered k s log (.ack (fun _ => 0) n fun _ => now) := hsent
  have hs : (streamMachine k).step (.ack (fun _ => 0) n fun _ => now) s =
      .ok ({ s with sender := u }, up.map .inl) := by
    simp only [streamMachine, h.ackNumber (le_refl n), hinbound]
  have hat : StreamEvent.At now (.ack (fun _ => 0) n fun _ => now) := rfl
  refine ⟨_, _, .single hat hok hs, h.upload (ackInv_step h.ack hok hs) hserving
    (fun j seq bytes again hmem => ?_) (le_refl t) (le_refl n), htimely'⟩
  exact (inboundAck_silent hinbound k.receiverId j seq bytes again hmem).trans (Nat.zero_le t)

theorem Underway.catchUp (h : Underway k c hash i a t n 0 s log) (hsm : k.sender.smoothing.Within S)
    (hS : S ≤ 107374182) (htimely : Timely S S.toNat now k.receiverId s.sender) :
    ∃ s' log', Leads k now s log now s' log' ∧ Underway k c hash i n t n 0 s' log' ∧
      Timely S S.toNat now k.receiverId s'.sender := by
  rcases Nat.lt_or_eq_of_le h.acked with hlt | rfl
  · refine h.acknowledge hlt hsm hS htimely fun packet hmem _ => sampleOk_of_recent hS ?_
    have hage := htimely.queue packet hmem
    have hrtt := htimely.net.rtt
    omega
  · exact ⟨s, log, .refl, h, htimely⟩

theorem Underway.round (h : Underway k c hash i n t n 0 s log) (hsm : k.sender.smoothing.Within S)
    (hS : S ≤ 107374182) (hage : age < 2 ^ 63) (htimely : Timely S age now k.receiverId s.sender) :
    ∃ later s' log', Leads k now s log later s' log' ∧ (Over k c hash s' log' ∨
      ∃ t', Underway k c hash i (n + 1) t' (n + 1) 0 s' log' ∧
        Timely S (age + 2 ^ 30) later k.receiverId s'.sender) := by
  obtain ⟨u, up, t', bytes, again, hrun, ht, hserving, hupTo, hmem, htimely', hstamp⟩ :=
    h.serving.supply h.name h.lt hS hage htimely k.sender
  obtain ⟨-, h0, h1⟩ := htimely.net.rto_eq (by omega)
  have hlater := timeoutAt_later h0 (show s.sender.net.rto < 2 ^ 31 by omega) now
  generalize timeoutAt now s.sender.net.rto = later at *
  -- the packet is transmitted
  have hsend : (streamMachine k).step (.send fun _ => passAt later) s =
      .ok ({ s with sender := u }, up.map .inl) := by simp only [streamMachine, hrun]
  have hsendOk : Delivered k s log (.send fun _ => passAt later) := trivial
  have hsent := h.upload (ackInv_step h.ack hsendOk hsend) hserving hupTo ht (le_refl n)
  have hsendAt : StreamEvent.At later (.send fun _ => passAt later) := fun _ => rfl
  have hleads := Leads.refl.tail hlater hsendAt hsendOk hsend
  -- and delivered
  have hdata : DataSent k (log ++ up.map .inl) (n + 1) bytes :=
    ⟨i, again, by rw [uploads_append, uploads_inl]; exact List.mem_append_right _ hmem⟩
  obtain ⟨d, down, hstep, hcases⟩ := hsent.data (fun _ => 0) (fun _ => later) hdata (by omega)
  have hdataOk : Delivered k { s with sender := u } (log ++ up.map .inl)
      (.data (fun _ => 0) (n + 1) bytes fun _ => later) := ⟨hdata, hsent.not_second⟩
  have hdataAt : StreamEvent.At later (.data (fun _ => 0) (n + 1) bytes fun _ => later) := rfl
  have hleads' := hleads.trans (.single hdataAt hdataOk hstep)
  rcases hcases with hover | ⟨n', hnext, hunderway⟩
  · exact ⟨later, _, _, hleads', Or.inl hover⟩
  · -- and acknowledged
    rw [hnext rfl] at hunderway
    obtain ⟨s', log', hack, hacked, htimely''⟩ := hunderway.acknowledge (Nat.lt_succ_self n) hsm hS htimely'
      fun packet hpacket hseq => by
        rw [hstamp packet hpacket hseq]
        refine sampleOk_of_recent hS ?_
        have hrtt := htimely.net.rtt
        rw [BitVec.sub_self]
        exact hrtt.1.trans hrtt.2
    exact ⟨later, s', log', hleads'.trans hack, Or.inr ⟨t', hacked, htimely''⟩⟩

theorem Underway.finish (hsm : k.sender.smoothing.Within S) (hS : S ≤ 107374182) (rounds : Nat) :
    ∀ {n t age : Nat} {now : Time} {s : System} {log : SystemLog}, n + rounds = maxPacketPerChunk →
      age + rounds * 2 ^ 30 < 2 ^ 63 → Underway k c hash i n t n 0 s log →
      Timely S age now k.receiverId s.sender →
      ∃ later s' log', Leads k now s log later s' log' ∧ Over k c hash s' log' := by
  induction rounds with
  | zero =>
    intro n t age now s log hn _ h _
    exact absurd hn h.lt.ne
  | succ rounds ih =>
    intro n t age now s log hn hage h htimely
    obtain ⟨later, s', log', hleads, hover | ⟨t', hnext, htimely'⟩⟩ := h.round hsm hS (by omega) htimely
    · exact ⟨later, s', log', hleads, hover⟩
    · obtain ⟨last, s'', log'', hrest, hover⟩ := ih (by omega) (by omega) hnext htimely'
      exact ⟨last, s'', log'', hleads.trans hrest, hover⟩

theorem Underway.completes (h : Underway k c hash i a t n 0 s log) (hsm : k.sender.smoothing.Within S)
    (hS : S ≤ 107374182) (htimely : Timely S S.toNat now k.receiverId s.sender) :
    ∃ later s' log', Leads k now s log later s' log' ∧ Over k c hash s' log' := by
  obtain ⟨s', log', hleads, hcaught, htimely'⟩ := h.catchUp hsm hS htimely
  have hlt := h.lt
  simp only [maxPacketPerChunk] at hlt
  obtain ⟨later, s'', log'', hrest, hover⟩ := Underway.finish hsm hS (maxPacketPerChunk - n)
    (show n + (maxPacketPerChunk - n) = maxPacketPerChunk by simp only [maxPacketPerChunk]; omega)
    (show S.toNat + (maxPacketPerChunk - n) * 2 ^ 30 < 2 ^ 63 by simp only [maxPacketPerChunk]; omega)
    hcaught htimely'
  exact ⟨later, s'', log'', hleads.trans hrest, hover⟩

theorem stream_completes (hsm : k.sender.smoothing.Within S) (hS : S ≤ 107374182)
    (h : (streamMachine k).Reach (StreamStarted k c hash) (Delivered k) s log) (hopen : ¬ Completed log)
    (htimely : Timely S S.toNat now k.receiverId s.sender) (honce : (takenSeqs k log).Nodup) :
    ∃ later s' log', Leads k now s log later s' log' ∧ Over k c hash s' log' := by
  rcases stream_cases h with hover | ⟨i, a, t, n, r, hunderway⟩
  · exact absurd hover.completed hopen
  · obtain rfl : r = 0 := hunderway.nodup_iff.mp honce
    exact hunderway.completes hsm hS htimely

/-- A repeat that was taken is never made good. -/
theorem Underway.stuck (h : Underway k c hash i a t n r s log) (hr : r ≠ 0)
    (hleads : Leads k now s log later s' log') :
    ∃ a' t' n' r', r' ≠ 0 ∧ Underway k c hash i a' t' n' r' s' log' := by
  induction hleads with
  | refl => exact ⟨a, t, n, r, hr, h⟩
  | tail _ _ _ hok hs ih =>
    obtain ⟨a', t', n', r', hne, hunderway⟩ := ih
    rcases hunderway.step hok hs with ⟨hzero, -⟩ | ⟨a'', t'', n'', r'', hle, hunderway'⟩
    · exact absurd hzero hne
    · exact ⟨a'', t'', n'', r'', by omega, hunderway'⟩

/-- In a run that may lose, repeat and reorder packets, as long as the estimates are those of samples up to
`S` microseconds, at most 107 seconds, and the outstanding packets are no older than that: the channel can
still take the stream to its end while time goes on, exactly if the receiver has taken no packet twice. -/
theorem stream_recoverable (hsm : k.sender.smoothing.Within S) (hS : S ≤ 107374182)
    (h : (streamMachine k).Reach (StreamStarted k c hash) (Delivered k) s log) (hopen : ¬ Completed log)
    (htimely : Timely S S.toNat now k.receiverId s.sender) :
    (∃ later s' log', Leads k now s log later s' log' ∧ Completed log') ↔ (takenSeqs k log).Nodup := by
  constructor
  · rintro ⟨later, s', log', hleads, hdone⟩
    rcases stream_cases h with hover | ⟨i, a, t, n, r, hunderway⟩
    · exact absurd hover.completed hopen
    · rw [hunderway.nodup_iff]
      by_contra hr
      obtain ⟨a', t', n', r', -, hunderway'⟩ := hunderway.stuck hr hleads
      exact hunderway'.not_completed hdone
  · intro honce
    obtain ⟨later, s', log', hleads, hover⟩ := stream_completes hsm hS h hopen htimely honce
    exact ⟨later, s', log', hleads, hover.completed⟩

/-- Two peers whose estimates are exact. -/
def exactLink : Link := { sampleLink with sender := { sampleEnv with smoothing := exactSmoothing } }

theorem exactLink_started : StreamStarted exactLink 0 (sampleHash 0) sampleSystem where
  id := ⟨Int.le_refl 0, by decide, by decide⟩
  receiver := Int.one_ne_zero
  upload := ⟨1, fun _ => unsetZero, _, _, fun _ => 0, .start rfl, rfl, Option.some_ne_none _, rfl⟩
  download := ⟨_, _, _, sampleSystem_download, rfl, rfl⟩

theorem exactLink_sent : ∃ s log, (streamMachine exactLink).Reach (StreamStarted exactLink 0 (sampleHash 0))
      (Delivered exactLink) s log ∧ DataSent exactLink log 1 (chunkData exactLink.sender (passAt 0).stack 0 0) ∧
    ¬ Completed log ∧ takenSeqs exactLink log = [] ∧ Timely 800000 800000 0 1 s.sender := by
  have hstart : (streamMachine exactLink).Reach (StreamStarted exactLink 0 (sampleHash 0))
    (Delivered exactLink) sampleSystem [] := .start exactLink_started
  have hsend := hstart.step (e := StreamEvent.send fun _ => passAt 0)
    trivial rfl
  refine ⟨_, _, hsend, ⟨0, false, List.mem_singleton.mpr rfl⟩, fun ⟨e, hmem⟩ => List.not_mem_nil hmem, rfl, ?_⟩
  exact ⟨bounded_init 1 (fun _ => unsetZero) (le_refl _), List.forall_mem_singleton.mpr (by decide)⟩

theorem stream_recoverable_lost : ∃ s log, DataSent exactLink log 1 (chunkData exactLink.sender (passAt 0).stack 0 0) ∧
    ((∃ later s' log', Leads exactLink 0 s log later s' log' ∧ Completed log') ↔
      (takenSeqs exactLink log).Nodup) := by
  obtain ⟨s, log, hreach, hsent, hopen, -, htimely⟩ := exactLink_sent
  have hS : (800000 : Int) ≤ 107374182 := by decide
  exact ⟨s, log, hsent, stream_recoverable (exactSmoothing_within _) hS hreach hopen htimely⟩

/-! ## What was verified -/

/-- Once the entry of a stream is full the only bytes that were verified are those of the sender's chunk, and
they were verified if they have the hash of the entry. -/
theorem completed_verified (h : (streamMachine k).Reach (StreamStarted k c hash) (Delivered k) s log)
    (hdone : Completed log) (h' : Hash) (bytes : List UInt8) : .verified h' bytes ∈ log.downloads ↔
      h' = hash ∧ bytes = masterChunk k.sender c ∧ k.receiver.shahash bytes = hash := by
  rcases stream_cases h with hover | ⟨i, a, t, n, r, hunderway⟩
  · exact hover.verified h' bytes
  · exact absurd hdone hunderway.not_completed

/-- A stream at its end. -/
theorem completed_verified_once : ∃ log, Completed log ∧ ∀ h' bytes,
    .verified h' bytes ∈ PeerLog.downloads log ↔ h' = sampleHash 0 ∧ bytes = masterChunk exactLink.sender 0 ∧
      exactLink.receiver.shahash bytes = sampleHash 0 := by
  obtain ⟨s, log, hreach, -, hopen, hnone, htimely⟩ := exactLink_sent
  have hS : (800000 : Int) ≤ 107374182 := by decide
  obtain ⟨later, s', log', hleads, hover⟩ :=
    stream_completes (exactSmoothing_within _) hS hreach hopen htimely (hnone ▸ List.nodup_nil)
  exact ⟨log', hover.completed, completed_verified (hleads.reach hreach) hover.completed⟩

end Bittorrent
