import Bittorrent.Stream.Ends
import Mathlib.Data.List.MinMax

/-!
# Acknowledgements

An ACK in flight carries the newest number of the receiver's tracker at some time, so the
expected-packet branch has run for every number up to it (`AckInv`), over every run of a stream and
whatever the channel does. The sender therefore removes only what was taken.

`AckInv` says of every packet in flight what it is, so a delivery can use it. A DATA packet is a piece of
the chunk under its number (`DataSent.piece`), and is received with it. An ACK has a number up to which all
packets were taken. The steps of the sender keep the second part, since they take nothing away from the log;
a step of the receiver answers with the tracker's number, which after the packet is at most one more than
before, and is one more only if the packet was just taken (`AckInv.answer`). That the number is at most 354
is a matter of the sender, who sent the packet with that number (`AckInv.newest_le`).
-/

namespace Bittorrent

variable {k : Link} {c : Int} {s s' : System} {log l : SystemLog} {down : DownloadLog}
  {seq n : Nat} {bytes : List UInt8}

/-! ## The invariant -/

/-- The tracker's number is at most 354 because the packet with that number was sent. -/
structure AckInv (k : Link) (c : Int) (s : System) (log : SystemLog) : Prop where
  valid : k.senderId ≠ idNull
  sender : Good (StreamOf k.receiverId c) (Carries k.sender k.receiverId c) s.sender log.uploads
  sent : ∀ j, Taken k log j → ∃ bytes, DataSent k log j bytes
  acks : ∀ n, AckSent k log n → ∀ j, 1 ≤ j → j ≤ n → Taken k log j
  receiver : ¬ SecondStream k log → getDownloadIndexById k.senderId s.receiver = none ∨
    ∃ index slot n, Tracks s.receiver k.senderId index slot n ∧
      ∀ j, 1 ≤ j → j ≤ n → Taken k log j

theorem ackSent_append : AckSent k (log ++ down.map .inr) n ↔
    AckSent k log n ∨ .sent (some k.src) (.ack n) ∈ down := by
  simp [AckSent]

theorem taken_append {j : Nat} : Taken k (log ++ down.map .inr) j ↔
    Taken k log j ∨ ∃ index entry size, .accepted index k.senderId j entry size ∈ down := by
  simp only [Taken, downloads_append, downloads_inr, List.mem_append, exists_or]

theorem secondStream_append : SecondStream k (log ++ down.map .inr) ↔
    SecondStream k log ∨ ∃ index entry, .handed index k.senderId entry ∈ down := by
  simp only [SecondStream, downloads_append, downloads_inr, List.mem_append, exists_or]

theorem chunkData_length (env : Env) (stack : Memory) (n : Nat) :
    (chunkData env stack c n).length ≤ maxPayloadSize := by
  rw [chunkData, readBytes_length]
  exact dataSize_le n

theorem DataSent.piece (h : DataSent k log seq bytes)
    (hgood : Good (StreamOf k.receiverId c) (Carries k.sender k.receiverId c) s.sender log.uploads) :
    ∃ n < maxPacketPerChunk, seq = n + 1 ∧ ∃ stack, bytes = chunkData k.sender stack c n := by
  obtain ⟨i, r, hmem⟩ := h
  obtain ⟨pre, hcarries⟩ := hgood.2.mem hmem
  exact hcarries rfl

theorem DataSent.seqNumber (h : DataSent k log seq bytes)
    (hgood : Good (StreamOf k.receiverId c) (Carries k.sender k.receiverId c) s.sender log.uploads)
    (stale : Memory) : (receiveInto stale (Message.data seq bytes).datagram).seqNumber = seq := by
  obtain ⟨n, hn, rfl, stack, rfl⟩ := h.piece hgood
  have hlen := chunkData_length (c := c) k.sender stack n
  simp only [maxPayloadSize, maxPacketPerChunk] at hlen hn
  rw [receive_seqNumber _ stale (by simp only [Message.packetLength, headerLength]; omega)]
  exact Nat.mod_eq_of_lt (show n + 1 < 2 ^ 32 by omega)

theorem AckInv.newest_le (h : AckInv k c s log)
    (htaken : ∀ j, 1 ≤ j → j ≤ n → Taken k log j) : n ≤ maxPacketPerChunk := by
  rcases Nat.eq_zero_or_pos n with rfl | hpos
  · exact Nat.zero_le _
  · obtain ⟨bytes, hsent⟩ := h.sent n (htaken n hpos (Nat.le_refl n))
    obtain ⟨m, hm, rfl, -⟩ := hsent.piece h.sender
    exact hm

theorem advance_cases (seq : Nat) (hn : n ≤ maxPacketPerChunk) :
    advance n seq = n ∨ (seq = n + 1 ∧ advance n seq = n + 1) := by
  simp only [maxPacketPerChunk] at hn
  rw [advance, wrap32, Nat.mod_eq_of_lt (by omega)]
  split_ifs with h
  · exact Or.inr ⟨h.symm, h.symm⟩
  · exact Or.inl rfl

/-! ## Steps -/

theorem AckInv.upload {u : Uploads} {up : UploadLog} (h : AckInv k c s log)
    (hgood : Good (StreamOf k.receiverId c) (Carries k.sender k.receiverId c) u
      (log.uploads ++ up)) : AckInv k c { s with sender := u } (log ++ up.map .inl) where
  valid := h.valid
  sender := by
    rw [uploads_append, uploads_inl]
    exact hgood
  sent j hj := by
    have hj' : Taken k log j := by simpa [Taken] using hj
    obtain ⟨bytes, hsent⟩ := h.sent j hj'
    exact ⟨bytes, hsent.mono⟩
  acks n hn j h1 hj := by
    have hn' : AckSent k log n := by simpa [AckSent] using hn
    exact (h.acks n hn' j h1 hj).mono
  receiver hsecond := by
    have hsecond' : ¬ SecondStream k log := by simpa [SecondStream] using hsecond
    rcases h.receiver hsecond' with hnone | ⟨index, slot, n, htracks, htaken⟩
    · exact Or.inl hnone
    · exact Or.inr ⟨index, slot, n, htracks, fun j h1 hj => (htaken j h1 hj).mono⟩

theorem AckInv.answer {d : Downloads} {last : Nat} (h : AckInv k c s log)
    (hsent : DataSent k log seq bytes)
    (hrest : ∀ a ∈ down, Quiet a ∨ ∃ index entry size, a = .accepted index k.senderId seq entry size)
    (hlast : ∀ j, 1 ≤ j → j ≤ last → Taken k log j ∨
      ∃ index entry size, .accepted index k.senderId j entry size ∈ down)
    (hreceiver : getDownloadIndexById k.senderId d = none ∨
      (∃ index entry, .handed index k.senderId entry ∈ down) ∨
      ∃ index slot, Tracks d k.senderId index slot last) :
    AckInv k c { s with receiver := d }
      (log ++ (.sent (some k.src) (.ack last) :: down).map .inr) := by
  have hupto : ∀ j, 1 ≤ j → j ≤ last →
      Taken k (log ++ (.sent (some k.src) (.ack last) :: down).map .inr) j := by
    intro j h1 hj
    rcases hlast j h1 hj with htaken | ⟨index, entry, size, hmem⟩
    · exact htaken.mono
    · exact taken_append.mpr (Or.inr ⟨index, entry, size, List.mem_cons_of_mem _ hmem⟩)
  refine ⟨h.valid, ?_, fun j hj => ?_, fun n hn j h1 hj => ?_, fun hsecond => ?_⟩
  · rw [uploads_append, uploads_inr, List.append_nil]
    exact h.sender
  · rcases taken_append.mp hj with hj | ⟨index, entry, size, hmem⟩
    · obtain ⟨bytes', hsent'⟩ := h.sent j hj
      exact ⟨bytes', hsent'.mono⟩
    · rcases List.mem_cons.mp hmem with heq | hmem
      · cases heq
      · rcases hrest _ hmem with hquiet | ⟨index', entry', size', heq⟩
        · exact hquiet.elim
        · cases heq
          exact ⟨bytes, hsent.mono⟩
  · rcases ackSent_append.mp hn with hn | hmem
    · exact (h.acks n hn j h1 hj).mono
    · rcases List.mem_cons.mp hmem with heq | hmem
      · cases heq
        exact hupto j h1 hj
      · rcases hrest _ hmem with hquiet | ⟨index', entry', size', heq⟩
        · exact hquiet.elim
        · cases heq
  · rcases hreceiver with hnone | ⟨index, entry, hmem⟩ | ⟨index, slot, htracks⟩
    · exact Or.inl hnone
    · exact absurd (secondStream_append.mpr (Or.inr ⟨index, entry, List.mem_cons_of_mem _ hmem⟩))
        hsecond
    · exact Or.inr ⟨index, slot, last, htracks, hupto⟩

theorem AckInv.data {d : Downloads} {packet : Incoming} {clk : Clock} (h : AckInv k c s log)
    (hsent : DataSent k log packet.seqNumber bytes) (hsecond : ¬ SecondStream k log)
    (hs : inboundData k.receiver k.src k.senderId packet clk s.receiver = .ok (d, down)) :
    AckInv k c { s with receiver := d } (log ++ down.map .inr) := by
  rcases h.receiver hsecond with hnone | ⟨index, slot, n, htracks, htaken⟩
  · rw [inboundData, hnone] at hs
    cases hs
    rw [List.map_nil, List.append_nil]
    exact h
  · -- what is acknowledged was taken before, or is the packet just taken
    have hlast : ∀ j, 1 ≤ j → j ≤ advance n packet.seqNumber → Taken k log j ∨
        (j = packet.seqNumber ∧ packet.seqNumber = advance n packet.seqNumber) := by
      intro j h1 hj
      rcases advance_cases packet.seqNumber (h.newest_le htaken) with hsame | ⟨hnext, heq⟩
      · exact Or.inl (htaken j h1 (hsame ▸ hj))
      · rcases Nat.lt_or_ge n j with hlt | hle
        · exact Or.inr ⟨by omega, hnext.trans heq.symm⟩
        · exact Or.inl (htaken j h1 hle)
    cases htracks.dataStep h.valid hs with
    | ignored =>
      rw [List.map_nil, List.append_nil]
      exact h
    | dropped hname htracks' hne =>
      refine h.answer hsent (fun a ha => absurd ha List.not_mem_nil) (fun j h1 hj => ?_)
        (Or.inr (Or.inr ⟨index, _, htracks'⟩))
      rcases hlast j h1 hj with htaken' | ⟨-, heq⟩
      · exact Or.inl htaken'
      · exact absurd heq hne
    | @saved slot' hash request entry chunk chunk' hname htracks' heq htarget hsave hpart =>
      refine h.answer hsent (fun a ha => ?_) (fun j h1 hj => ?_)
        (Or.inr (Or.inr ⟨index, slot', htracks'.congr rfl⟩))
      · exact Or.inr ⟨index, entry, _, List.mem_singleton.mp ha⟩
      · rcases hlast j h1 hj with htaken' | ⟨rfl, -⟩
        · exact Or.inl htaken'
        · exact Or.inr ⟨index, entry, _, List.mem_singleton.mpr rfl⟩
    | @closed entry rest _ heq hdone hquiet hclosed =>
      refine h.answer hsent (fun a ha => ?_) (fun j h1 hj => ?_) ?_
      · rcases List.mem_cons.mp ha with rfl | ha
        · exact Or.inr ⟨index, entry, _, rfl⟩
        · exact Or.inl (hquiet a ha)
      · rcases hlast j h1 hj with htaken' | ⟨rfl, -⟩
        · exact Or.inl htaken'
        · exact Or.inr ⟨index, entry, _, List.mem_cons_self⟩
      · rcases hclosed with hnone | ⟨i, e, hmem⟩
        · exact Or.inl hnone
        · exact Or.inr (Or.inl ⟨i, e, List.mem_cons_of_mem _ hmem⟩)

theorem ackInv_opened (h : Opened k c s) : AckInv k c s [] := by
  obtain ⟨⟨u₀, clk, hclean, hnone, hget⟩, request, entry, chunk, hopened⟩ := h
  obtain ⟨-, index, slot, -, -, -, -, htracks⟩ := hopened.tracks
  obtain ⟨-, -, -, -, hvalid, -⟩ := hopened
  refine ⟨hvalid, hget ▸ good_opened hclean hnone clk, fun j hj => ?_, fun n hn => ?_, fun _ =>
    Or.inr ⟨index, slot, 0, htracks, fun j h1 hj => absurd h1 (by omega)⟩⟩
  · obtain ⟨_, _, _, hmem⟩ := hj
    cases hmem
  · cases hn

theorem ackInv_step {ev : StreamEvent} (h : AckInv k c s log) (hok : Delivered k s log ev)
    (hs : (streamMachine k).step ev s = .ok (s', l)) : AckInv k c s' (log ++ l) := by
  cases ev with
  | send clk =>
    cases hs
    exact h.upload ((streamOf_kept _ c).send h.sender h.sender.pairs clk)
  | ack stale n clk =>
    simp only [streamMachine] at hs
    split at hs
    · cases hs
    · rename_i u up hack
      cases hs
      exact h.upload ((streamOf_kept _ c).inboundAck h.sender hack)
  | data stale seq bytes clk =>
    obtain ⟨hsent, hsecond⟩ := hok
    have hseq := hsent.seqNumber h.sender stale
    simp only [streamMachine] at hs
    split at hs
    · cases hs
    · rename_i d down hdata
      cases hs
      exact h.data (hseq.symm ▸ hsent) hsecond hdata

theorem ackInv_reach (h : (streamMachine k).Reach (Opened k c) (Delivered k) s log) :
    AckInv k c s log :=
  h.invariant (fun _ hs => ackInv_opened hs) fun _ _ _ _ _ _ hI hok hs => ackInv_step hI hok hs

/-! ## Acknowledgements are sound -/

/-- The numbers transmitted to the receiver. -/
def transmittedSeqs (k : Link) (log : SystemLog) : List Nat :=
  log.uploads.filterMap fun
    | (_, .transmitted p seq _ _) => if p = k.receiverId then some seq else none
    | _ => none

/-- The highest of them. -/
def highestSent (k : Link) (log : SystemLog) : Nat := (transmittedSeqs k log).foldr max 0

theorem DataSent.le_highest (h : DataSent k log seq bytes) : seq ≤ highestSent k log := by
  obtain ⟨i, r, hmem⟩ := h
  have hmem : seq ∈ transmittedSeqs k log := by
    refine List.mem_filterMap.mpr ⟨_, hmem, ?_⟩
    simp
  exact List.le_max_of_le' 0 hmem (Nat.le_refl seq)

/-- No ACK in flight is above the highest number transmitted, and an ACK removes a number from the
sent queue only when the receiver has taken every number up to it. -/
theorem acks_sound (h : (streamMachine k).Reach (Opened k c) (Delivered k) s log) :
    (∀ n, AckSent k log n → n ≤ highestSent k log) ∧
    ∀ stale n clk s' l, AckSent k log n → (streamMachine k).step (.ack stale n clk) s = .ok (s', l) →
      ∀ x ∈ sentQueue k.receiverId s.sender, x ∉ sentQueue k.receiverId s'.sender →
        ∀ j, 1 ≤ j → j ≤ x → Taken k log j := by
  have hinv := ackInv_reach h
  have hle : ∀ n, AckSent k log n → n ≤ highestSent k log := by
    intro n hn
    rcases Nat.eq_zero_or_pos n with rfl | hpos
    · exact Nat.zero_le _
    · obtain ⟨bytes, hsent⟩ := hinv.sent n (hinv.acks n hn n hpos (Nat.le_refl n))
      exact hsent.le_highest
  refine ⟨hle, fun stale n clk s' l hn hs x hx hx' j h1 hj => ?_⟩
  simp only [streamMachine] at hs
  split at hs
  · cases hs
  · rename_i u up hack
    cases hs
    have hx := inboundAck_removed hinv.sender hack hx hx'
    have hnumber : (receiveInto stale (Message.ack n).datagram).ackNumber ≤ n := by
      rw [receive_ackNumber (.ack n) stale (show headerLength < 2 ^ 16 by decide)]
      exact Nat.mod_le _ _
    exact hinv.acks n hn j h1 (by omega)

set_option maxRecDepth 20000 in
/-- The first packet of a stream is delivered: its ACK is in flight and its number in the queue. -/
theorem acks_sound_one : ∃ s log, AckSent sampleLink log 1 ∧ sentQueue 1 s.sender = [1] ∧
    (∀ n, AckSent sampleLink log n → n ≤ highestSent sampleLink log) ∧
    ∀ stale n clk s' l, AckSent sampleLink log n →
      (streamMachine sampleLink).step (.ack stale n clk) s = .ok (s', l) →
        ∀ x ∈ sentQueue 1 s.sender, x ∉ sentQueue 1 s'.sender →
          ∀ j, 1 ≤ j → j ≤ x → Taken sampleLink log j := by
  have hstart : (streamMachine sampleLink).Reach (Opened sampleLink 0) (Delivered sampleLink)
    sampleSystem [] := .start ⟨sampleSystem_upload, _, _, _, sampleSystem_download⟩
  have hsend := hstart.step (e := StreamEvent.send fun _ => passAt 0) trivial rfl
  have hdata := hsend.step (e := StreamEvent.data (fun _ => 0) 1 (chunkData sampleEnv (fun _ => 0) 0 0)
    fun _ => 0) ⟨⟨0, false, List.mem_singleton.mpr rfl⟩, fun ⟨_, _, h⟩ => List.not_mem_nil h⟩ rfl
  refine ⟨_, _, ?_, ?_, acks_sound hdata⟩
  · exact List.Mem.head _
  · rfl

end Bittorrent
