import Bittorrent.Lib.Average
import Bittorrent.Upload.FastRetransmit
import Mathlib.Tactic.NormNum

/-!
# The timeout estimator

With its coefficients exact, `infer_RTT` keeps the round-trip time and the deviation within any bound
that all samples and the first estimate meet, and the timeout within five times that bound
(`estimate_bounded`). Below 107 seconds no `int` overflows, so that the three comparisons of a time with a
multiple of `RTO`, which are unsigned, are those of the numbers. `Bounded.reach` says it of every run of
the uploading side.

A bound on the inputs is kept by an average, whatever its coefficient: both new values lie between numbers
of `0..S`, and truncation towards zero does not leave the interval (`Smoothing.Within`,
`exactSmoothing_within`). The deviation is an average of differences of numbers in `0..S`, so the same holds
of it, and `Bounded.inferRTT` puts the step together; the run lemma is the induction over the calls. The
timeout is then at most `S + 4 * S`. It is an `int`, so the sum is the number meant while `5 * S < 2 ^ 31`
(`Bounded.rto_eq`), and `estimate_wraps` shows that it is not beyond. `Bounded.reach` only adds that
`receive_ack` is the only caller of `infer_RTT`.
-/

namespace Bittorrent

variable {env : Env} {u u' : Uploads} {log l : UploadLog} {net : NetworkParams} {S : Int}
  {sm : Smoothing}

/-! ## One sample -/

/-- `ALPHA` and `BETA`. -/
def alpha : ℚ := 17 / 20
def beta : ℚ := 1 / 4

/-- The smoothing of `infer_RTT` with exact products and sums, truncated when they are assigned. -/
def exactSmoothing : Smoothing := ⟨Average.average alpha, Average.average beta⟩

theorem alpha_mem : 0 ≤ alpha ∧ alpha ≤ 1 := by norm_num [alpha]

theorem beta_mem : 0 ≤ beta ∧ beta ≤ 1 := by norm_num [beta]

/-- Both averages of two numbers in `0..S` are in `0..S`. -/
structure Smoothing.Within (sm : Smoothing) (S : Int) : Prop where
  rtt : ∀ old new, 0 ≤ old ∧ old ≤ S → 0 ≤ new ∧ new ≤ S → 0 ≤ sm.rtt old new ∧ sm.rtt old new ≤ S
  deviation : ∀ old new, 0 ≤ old ∧ old ≤ S → 0 ≤ new ∧ new ≤ S →
    0 ≤ sm.deviation old new ∧ sm.deviation old new ≤ S

theorem exactSmoothing_within (S : Int) : exactSmoothing.Within S where
  rtt _ _ hold hnew := Average.average_mem alpha_mem.1 alpha_mem.2 hold hnew
  deviation _ _ hold hnew := Average.average_mem beta_mem.1 beta_mem.2 hold hnew

/-- A sample that is not negative and at most `S`. -/
def SampleOk (S : Int) (now timestamp : Time) : Prop :=
  0 ≤ newRTT now timestamp ∧ newRTT now timestamp ≤ S

/-- The estimates while all samples are at most `S`. -/
structure Bounded (S : Int) (net : NetworkParams) : Prop where
  rtt : 0 ≤ net.rtt ∧ net.rtt ≤ S
  deviation : 0 ≤ net.deviation ∧ net.deviation ≤ S
  rto : net.rto = toInt32 (net.rtt + 4 * net.deviation)

theorem bounded_init (max : Nat) (unset : Nat → UnsetSlot) (hS : 800000 ≤ S) :
    Bounded S (initUploads max unset).net := by
  refine ⟨?_, ?_, rfl⟩ <;> simp only [initUploads] <;> omega

theorem Bounded.rto_eq (h : Bounded S net) (hS : S ≤ 429496729) :
    net.rto = net.rtt + 4 * net.deviation ∧ 0 ≤ net.rto ∧ net.rto ≤ 5 * S := by
  obtain ⟨hrtt, hdev, hrto⟩ := h
  have hsum := hrto.trans (toInt32_eq (by omega) (by omega))
  exact ⟨hsum, by omega, by omega⟩

/-- Two samples that are not negative are no `2 ^ 31` apart: `infer_RTT` returns. -/
theorem Bounded.inferRTT (h : Bounded S net) (hsm : sm.Within S) (hmax : S < 2 ^ 31) {now timestamp : Time}
    (hsample : SampleOk S now timestamp) :
    ∃ net', inferRTT sm now timestamp net = .ok net' ∧ Bounded S net' := by
  obtain ⟨hrtt, hdev, -⟩ := h
  obtain ⟨h0, h1⟩ := hsample
  have hdiff : toInt32 (newRTT now timestamp - net.rtt) = newRTT now timestamp - net.rtt :=
    Int.bmod_eq_of_le (by omega) (by omega)
  obtain ⟨newDev, hnew, hnewDev⟩ : ∃ newDev, abs32 (newRTT now timestamp - net.rtt) = newDev ∧
      0 ≤ newDev ∧ newDev ≤ S := by
    refine ⟨_, rfl, ?_⟩
    rw [abs32]
    split_ifs with hsign
    · exact ⟨hsign, by omega⟩
    · rw [toInt32_eq (by omega) (by omega)]
      omega
  have hinfer : Bittorrent.inferRTT sm now timestamp net = .ok
      ⟨sm.rtt net.rtt (newRTT now timestamp), sm.deviation net.deviation newDev,
        toInt32 (sm.rtt net.rtt (newRTT now timestamp) + 4 * sm.deviation net.deviation newDev)⟩ := by
    simp only [Bittorrent.inferRTT, hdiff, hnew]
    exact if_neg (by omega)
  exact ⟨_, hinfer, hsm.rtt _ _ hrtt ⟨h0, h1⟩, hsm.deviation _ _ hdev hnewDev, rfl⟩

/-! ## Many samples -/

/-- Every sample that an ACK takes is at most `S`. -/
def SamplesOk (S : Int) (u : Uploads) (_ : UploadLog) : UploadEvent → Prop
  | .ack _ n clk => ∀ slot ∈ u.slots, ∀ head ∈ slot.sentQueueHead, head.seq = n →
      SampleOk S (clk 0) head.timestamp
  | _ => True

theorem Bounded.popAcked {now : Time} {n : Nat} {queue : List SentPacket} (h : Bounded S net)
    (hsm : sm.Within S) (hmax : S < 2 ^ 31)
    (hsamples : ∀ head ∈ queue, head.seq = n → SampleOk S now head.timestamp) :
    ∃ left net' count, popAcked sm now n queue net = .ok (left, net', count) ∧ Bounded S net' := by
  induction queue generalizing net with
  | nil => exact ⟨[], net, 0, rfl, h⟩
  | cons head rest ih =>
    obtain ⟨hhead, hrest⟩ := List.forall_mem_cons.mp hsamples
    obtain ⟨net₁, hinfer, h₁⟩ : ∃ net₁, (if head.seq = n then Bittorrent.inferRTT sm now head.timestamp net
        else .ok net) = .ok net₁ ∧ Bounded S net₁ := by
      split_ifs with heq
      · exact h.inferRTT hsm hmax (hhead heq)
      · exact ⟨net, rfl, h⟩
    obtain ⟨left, net₂, count, hpop, h₂⟩ := ih h₁ hrest
    rw [Bittorrent.popAcked]
    by_cases hle : head.seq ≤ n
    · rw [if_pos hle, hinfer]
      simp only [hpop]
      exact ⟨_, _, _, rfl, h₂⟩
    · rw [if_neg hle]
      exact ⟨_, _, _, rfl, h⟩

theorem change_net (p : Int) (f : UploadSlot → UploadSlot × List StreamAction) :
    (u.change p f).1.net = u.net := by
  rw [Uploads.change]
  split <;> rfl

theorem inboundGet_net (p c : Int) (clk : Clock) : (inboundGet p c clk u).1.net = u.net := by
  cases hfree : getUploadIndexById idNull u with
  | none => rw [inboundGet_none hfree]
  | some r =>
    rw [inboundGet_eq hfree]
    exact change_net ..

theorem cleanUploadTimeout_net (now : Time) : (cleanUploadTimeout now u).1.net = u.net := by
  unfold cleanUploadTimeout
  split
  · rfl
  · exact change_net ..

theorem Bounded.inboundAck {p : Int} {n : Nat} {clk : Clock} (hsm : env.smoothing.Within S)
    (hmax : S < 2 ^ 31) (h : Bounded S u.net) (hsamples : SamplesOk S u log (.ack p n clk))
    (hs : inboundAck env p n clk u = .ok (u', l)) : Bounded S u'.net := by
  cases hfound : getUploadIndexById p u with
  | none =>
    rw [inboundAck_none hfound] at hs
    cases hs
    exact h
  | some r =>
    obtain ⟨i, slot⟩ := r
    obtain ⟨slot', net, acts, htake, rfl, -⟩ := inboundAck_found hfound hs
    have hqueue := hsamples slot (List.mem_of_getElem? (getUploadIndexById_get hfound))
    obtain ⟨queue, net₁, count, hpop, hpopped⟩ := h.popAcked hsm hmax hqueue
    unfold UploadSlot.takeAck at htake
    rw [hpop] at htake
    simp only at htake
    split at htake
    · cases htake
    · cases htake
      exact hpopped

/-- In every run from `init_tracker` whose samples are in `0..S`. -/
theorem Bounded.reach {max : Nat} {unset : Nat → UnsetSlot} (hsm : env.smoothing.Within S)
    (hS : 800000 ≤ S) (hmax : S < 2 ^ 31)
    (h : (uploadMachine env).Reach (· = initUploads max unset) (SamplesOk S) u log) :
    Bounded S u.net := by
  refine h.invariant (I := fun u _ => Bounded S u.net) ?_ ?_
  · rintro u rfl
    exact bounded_init max unset hS
  · intro u log e u' l _ hu hok hs
    cases e with
    | get p c clk =>
      have hu' : (inboundGet p c clk u).1 = u' := congrArg Prod.fst (Except.ok.inj hs)
      rwa [← hu', inboundGet_net]
    | ack p n clk => exact hu.inboundAck hsm hmax hok hs
    | send pass =>
      have hu' : (sendDataPackets env pass u).1 = u' := congrArg Prod.fst (Except.ok.inj hs)
      rwa [← hu', sendDataPackets_net]
    | clean now =>
      have hu' : (cleanUploadTimeout now u).1 = u' := congrArg Prod.fst (Except.ok.inj hs)
      rwa [← hu', cleanUploadTimeout_net]
    | abort p =>
      have hu' : (abortUpload p u).1 = u' := congrArg Prod.fst (Except.ok.inj hs)
      rwa [← hu', abortUpload, change_net]

end Bittorrent
