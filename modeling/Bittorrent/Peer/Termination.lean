import Bittorrent.Lib.Wrapping
import Bittorrent.Peer.Overread

/-!
# Where the IHAVE case ends

The loop of `print_incoming_packet` steps an `unsigned short` by 20 towards the length field. It passes
the multiples of 4 and no other value, so that it ends for lengths up to 65532 and for none above
(`ihave_terminates_iff`). The loops of `update_chunks` and `packet_contain_chunk` have counters as wide
as their bounds and always end.

A loop that steps by a constant in `n` bits goes through the multiples of the greatest common divisor
(`Wrapping.ends_iff`); here 20 and `2 ^ 16` give 4, so it passes the bound exactly if there is a multiple of
4 that is not below it (`printLoop_ok_iff`). The model gives the loop fuel for every value of its counter,
so running out of it is running for ever. The other two loops are bounded by a byte and by a `short`, and
their counters get there.
-/

namespace Bittorrent

variable {packet : Incoming} {length fuel : Nat} {hash : Hash}

/-! ## The three loops -/

theorem gcd_step : Nat.gcd 20 (2 ^ 16) = 4 := by decide

theorem printLoop_eq (length fuel i : Nat) : printLoop length fuel i =
    if Wrapping.counts (2 ^ 16) 20 length fuel i then .ok () else .error .diverge := by
  induction fuel generalizing i with
  | zero => rfl
  | succ fuel ih =>
    rw [printLoop, Wrapping.counts, ih]
    by_cases hlt : i < length
    · rw [if_pos hlt, if_pos hlt]
    · rw [if_neg hlt, if_neg hlt, if_pos rfl]

/-- The loop ends when it has as much fuel as the counter has values, or never. -/
theorem printLoop_ok_iff (hfuel : 2 ^ 16 ≤ fuel) :
    printLoop length fuel 20 = .ok () ↔ length ≤ 65532 := by
  have hends : Wrapping.counts (2 ^ 16) 20 length fuel 20 = true ↔ length ≤ 2 ^ 16 - Nat.gcd 20 (2 ^ 16) :=
    Wrapping.ends_iff length (by decide) (by decide) hfuel
  rw [gcd_step] at hends
  refine Iff.trans ?_ hends
  rw [printLoop_eq]
  split_ifs with h
  · exact iff_of_true rfl h
  · exact iff_of_false (by simp) h

theorem printLoop_diverges (h : 65532 < length) (fuel : Nat) :
    printLoop length fuel 20 = .error .diverge := by
  rw [printLoop_eq, if_neg]
  intro hcounts
  obtain ⟨k, -, hle⟩ := (Wrapping.counts_iff (by decide)).mp hcounts
  have hlast : (20 + k * 20) % 2 ^ 16 ≤ 2 ^ 16 - Nat.gcd 20 (2 ^ 16) :=
    Wrapping.passed_le (by decide) (by decide) k
  rw [gcd_step] at hlast
  omega

theorem printIncomingPacket_ok_iff (htype : packet.packetType = PacketType.ihave) :
    printIncomingPacket packet = .ok () ↔ packet.packetLength ≤ 65532 := by
  rw [printIncomingPacket, if_neg (by rw [htype]; decide)]
  exact printLoop_ok_iff (by decide)

theorem packetContainLoop_ok (packet : Incoming) (hash : Hash) : ∀ (fuel i : Nat),
    i ≤ packet.chunkCount → packet.chunkCount < i + fuel →
      packetContainLoop packet hash fuel i =
        .ok ((List.range' i (packet.chunkCount - i)).any fun j => hash = packet.hashAt j) := by
  have hbyte : packet.chunkCount < 2 ^ 8 := UInt8.toNat_lt _
  intro fuel
  induction fuel with
  | zero => intro i _ hfuel; omega
  | succ fuel ih =>
    intro i hi hfuel
    rw [packetContainLoop]
    by_cases hlt : i < packet.chunkCount
    · have hrange : List.range' i (packet.chunkCount - i) =
          i :: List.range' (i + 1) (packet.chunkCount - (i + 1)) := by
        rw [show packet.chunkCount - i = packet.chunkCount - (i + 1) + 1 by omega, List.range'_succ]
      rw [if_pos hlt, hrange, List.any_cons]
      by_cases hhash : hash = packet.hashAt i
      · rw [if_pos hhash, decide_eq_true hhash, Bool.true_or]
      · rw [if_neg hhash, decide_eq_false hhash, Bool.false_or, Nat.mod_eq_of_lt (by omega)]
        exact ih (i + 1) (by omega) (by omega)
    · rw [if_neg hlt, show packet.chunkCount - i = 0 by omega]
      rfl

theorem packetContainChunk_loop (packet : Incoming) (hash : Hash) :
    packetContainLoop packet hash (2 ^ 8) 0 = .ok (packetContainChunk packet hash) := by
  have hbyte : packet.chunkCount < 2 ^ 8 := UInt8.toNat_lt _
  rw [packetContainLoop_ok packet hash _ 0 (Nat.zero_le _) (by omega), packetContainChunk, Nat.sub_zero,
    List.range_eq_range']

theorem packetLength_lt (packet : Incoming) : packet.packetLength < 2 ^ 16 := by
  have hhi := (packet.buf 6).toNat_lt
  have hlo := (packet.buf (6 + 1)).toNat_lt
  rw [Incoming.packetLength, ntohs]
  omega

theorem updateCount_toNat (packet : Incoming) :
    (updateCount packet).toNat = (packet.packetLength - 20) / 20 := by
  rw [updateCount]
  rcases Nat.lt_or_ge packet.packetLength 20 with h | h
  · have hneg : ((packet.packetLength : Int) - 20).tdiv 20 = -((20 - packet.packetLength : Nat) / 20 : Nat) := by
      rw [show (packet.packetLength : Int) - 20 = -((20 - packet.packetLength : Nat) : Int) by omega,
        Int.neg_tdiv, Int.tdiv_eq_ediv_of_nonneg (by omega)]
      rfl
    rw [hneg]
    omega
  · rw [Int.tdiv_eq_ediv_of_nonneg (by omega)]
    omega

theorem updateCount_lt (packet : Incoming) : (updateCount packet).toNat < 2 ^ 16 := by
  have hlength := packetLength_lt packet
  rw [updateCount_toNat]
  omega

theorem updateLoop_ok (packet : Incoming) : ∀ (fuel i : Nat), i ≤ (updateCount packet).toNat →
    (updateCount packet).toNat < i + fuel → updateLoop packet fuel i =
      .ok ((List.range' i ((updateCount packet).toNat - i)).map packet.hashAt) := by
  have hfits := updateCount_lt packet
  intro fuel
  induction fuel with
  | zero => intro i _ hfuel; omega
  | succ fuel ih =>
    intro i hi hfuel
    rw [updateLoop]
    by_cases hlt : (i : Int) < updateCount packet
    · have hrange : List.range' i ((updateCount packet).toNat - i) =
          i :: List.range' (i + 1) ((updateCount packet).toNat - (i + 1)) := by
        rw [show (updateCount packet).toNat - i = (updateCount packet).toNat - (i + 1) + 1 by omega,
          List.range'_succ]
      have hnext : toInt32 ((i : Int) + 1) = ((i + 1 : Nat) : Int) := toInt32_eq (by omega) (by omega)
      rw [if_pos hlt, hrange, hnext, ih (i + 1) (by omega) (by omega)]
      rfl
    · rw [if_neg hlt, show (updateCount packet).toNat - i = 0 by omega]
      rfl

theorem updateChunks_loop (packet : Incoming) :
    updateLoop packet (2 ^ 16) 0 = .ok (updateChunks packet) := by
  have hfits := updateCount_lt packet
  rw [← Int.natCast_zero, updateLoop_ok packet _ 0 (Nat.zero_le _) (by omega), updateCount_toNat,
    Nat.sub_zero, updateChunks, List.range_eq_range']

/-! ## The case -/

variable {env : Env} {src : Addr} {clk : Clock} {s : Peer}

theorem ihave_returns_iff (h : OfType PacketType.ihave packet) :
    (∃ r, processInboundUdp env src packet clk s = .ok r) ↔ printIncomingPacket packet = .ok () := by
  rw [processInboundUdp_ihave h, inboundIhave]
  cases printIncomingPacket packet with
  | error f => simp [Peer.download]
  | ok _ =>
    simp only [iff_true]
    split_ifs
    · exact ⟨_, rfl⟩
    · exact ⟨_, rfl⟩

/-- A valid IHAVE, whatever its length and count fields say and in every state of the peer: all three
loops of its case end if and only if its length field is at most 65532. -/
theorem ihave_terminates_iff (env : Env) (src : Addr) (clk : Clock) (s : Peer)
    (hvalid : validatePacket packet.magicNumber packet.versionNumber packet.packetType = true)
    (htype : packet.packetType = PacketType.ihave) :
    ((∃ r, processInboundUdp env src packet clk s = .ok r) ∧
      (∃ fuel, printLoop packet.packetLength fuel 20 = .ok ()) ∧
      (∃ fuel, updateLoop packet fuel 0 = .ok (updateChunks packet)) ∧
      ∀ hash, ∃ fuel, packetContainLoop packet hash fuel 0 = .ok (packetContainChunk packet hash)) ↔
    packet.packetLength ≤ 65532 := by
  constructor
  · rintro ⟨-, ⟨fuel, hends⟩, -⟩
    by_contra hlong
    rw [printLoop_diverges (by omega)] at hends
    cases hends
  · intro hshort
    exact ⟨(ihave_returns_iff ⟨hvalid, htype⟩).mpr ((printIncomingPacket_ok_iff htype).mpr hshort),
      ⟨_, (printLoop_ok_iff (Nat.le_refl _)).mpr hshort⟩, ⟨_, updateChunks_loop packet⟩,
      fun hash => ⟨_, packetContainChunk_loop packet hash⟩⟩

/-- The header of an IHAVE of any length, over zeros. -/
def ihaveOfLength (hi lo : UInt8) : Incoming :=
  ⟨fun k => [60, 81, 1, 1, 0, 16, hi, lo].getD k 0⟩

/-- The longest IHAVE that is printed to its end. -/
theorem ihave_terminates_longest : ∃ r, processInboundUdp sampleEnv sampleSrc (ihaveOfLength 255 252)
    (fun _ => 0) (initPeer 1 (fun _ => unsetZero) [] fun _ _ => 0) = .ok r :=
  have hvalid : validatePacket (ihaveOfLength 255 252).magicNumber
      (ihaveOfLength 255 252).versionNumber (ihaveOfLength 255 252).packetType = true := by decide
  ((ihave_terminates_iff sampleEnv sampleSrc (fun _ => 0) (initPeer 1 (fun _ => unsetZero) [] fun _ _ => 0)
    hvalid (by decide)).mpr (by decide)).1

/-- One byte longer it is printed for ever. -/
theorem ihave_diverges :
    validatePacket (ihaveOfLength 255 253).magicNumber (ihaveOfLength 255 253).versionNumber
      (ihaveOfLength 255 253).packetType = true ∧
    (ihaveOfLength 255 253).packetType = PacketType.ihave ∧
    (∀ fuel, printLoop (ihaveOfLength 255 253).packetLength fuel 20 = .error .diverge) ∧
    ∀ env src clk s, ¬ ∃ r, processInboundUdp env src (ihaveOfLength 255 253) clk s = .ok r := by
  have hvalid : validatePacket (ihaveOfLength 255 253).magicNumber
      (ihaveOfLength 255 253).versionNumber (ihaveOfLength 255 253).packetType = true := by decide
  have htype : (ihaveOfLength 255 253).packetType = PacketType.ihave := by decide
  have hlong : 65532 < (ihaveOfLength 255 253).packetLength := by decide
  refine ⟨hvalid, htype, printLoop_diverges hlong, fun env src clk s hr => ?_⟩
  have hshort := (printIncomingPacket_ok_iff htype).mp ((ihave_returns_iff ⟨hvalid, htype⟩).mp hr)
  omega

end Bittorrent
