import Bittorrent.Model.Download
import Bittorrent.Upload.Estimator
import Bittorrent.Upload.Chunk

/-!
# Offsets in the master and output files

Where a chunk is read and written is an `int` product of its id. It is the position meant exactly for
the first 4096 chunks (`offsets_exact_iff`), the first 2 GiB of a file; two of them share no byte. From
id 4096 on the product wraps to a negative number, `lseek` fails, and the bytes of chunk 0 are served
or overwritten.

For an id below 4096 the largest product is below `2 ^ 31`, so nothing wraps (`offsets_exact`), and the
positions of a chunk lie in an interval of its own (`OffsetsExact.own`). For a larger id the product is
above every `int`, so the offset, which is one, is not the product (`offsets_exact_iff`). At the first such
id it is the smallest `int`, a position that `lseek` refuses.
-/

namespace Bittorrent

variable {env : Env} {id other : Int} {seq pos : Nat}

/-! ## Positions -/

/-- The offsets of a chunk, in both files, are the products they are written as. -/
structure OffsetsExact (id : Int) : Prop where
  master : ∀ seq < maxPacketPerChunk, dataOffset id seq = id * btChunkSize + seq * maxPayloadSize
  output : chunkOffset id = id * btChunkSize

/-- The positions at which chunk `id` is read from the master file or written to the output file. -/
def Touches (id : Int) (pos : Nat) : Prop :=
  (∃ seq < maxPacketPerChunk,
    (dataOffset id seq).toNat ≤ pos ∧ pos < (dataOffset id seq).toNat + dataSize seq) ∨
  (chunkOffset id).toNat ≤ pos ∧ pos < (chunkOffset id).toNat + btChunkSize

theorem dataSize_within (h : seq < maxPacketPerChunk) :
    seq * maxPayloadSize + dataSize seq ≤ btChunkSize := by
  rw [dataSize_eq h]
  simp only [maxPacketPerChunk, maxPayloadSize, btChunkSize] at h ⊢
  omega

theorem OffsetsExact.own (h : OffsetsExact id) (h0 : 0 ≤ id) (hpos : Touches id pos) :
    id.toNat * btChunkSize ≤ pos ∧ pos < (id.toNat + 1) * btChunkSize := by
  have hid : ((id.toNat * btChunkSize : Nat) : Int) = id * btChunkSize := by
    rw [Int.natCast_mul, Int.toNat_of_nonneg h0]
  rw [Nat.add_mul, Nat.one_mul]
  rcases hpos with ⟨seq, hseq, hlo, hhi⟩ | ⟨hlo, hhi⟩
  · have hsize := dataSize_within hseq
    have hdata : (dataOffset id seq).toNat = id.toNat * btChunkSize + seq * maxPayloadSize := by
      rw [h.master seq hseq, ← hid, ← Int.natCast_mul, ← Int.natCast_add, Int.toNat_natCast]
    omega
  · have hchunk : (chunkOffset id).toNat = id.toNat * btChunkSize := by
      rw [h.output, ← hid, Int.toNat_natCast]
    omega

theorem OffsetsExact.apart (h : OffsetsExact id) (h' : OffsetsExact other) (h0 : 0 ≤ id)
    (h0' : 0 ≤ other) (hne : other ≠ id) (hpos : Touches id pos) : ¬ Touches other pos := by
  intro hpos'
  obtain ⟨hlo, hhi⟩ := h.own h0 hpos
  obtain ⟨hlo', hhi'⟩ := h'.own h0' hpos'
  have hlt : id.toNat < other.toNat + 1 := Nat.lt_of_mul_lt_mul_right (hlo.trans_lt hhi')
  have hlt' : other.toNat < id.toNat + 1 := Nat.lt_of_mul_lt_mul_right (hlo'.trans_lt hhi)
  omega

/-! ## The ids -/

theorem offsets_exact (h0 : 0 ≤ id) (h1 : id ≤ 4095) : OffsetsExact id where
  master seq hseq := by
    simp only [maxPacketPerChunk] at hseq
    rw [dataOffset]
    apply toInt32_eq <;> simp only [btChunkSize, maxPayloadSize] <;> omega
  output := by
    rw [chunkOffset]
    apply toInt32_eq <;> rw [btChunkSize] <;> omega

/-- For every `int` that is not negative: the offsets of the chunk are exact and not negative for every
packet, and it shares no byte with another chunk whose offsets are exact, if and only if its id is at
most 4095. -/
theorem offsets_exact_iff (h0 : 0 ≤ id) (h1 : id < 2 ^ 31) :
    ((OffsetsExact id ∧ 0 ≤ chunkOffset id ∧ ∀ seq < maxPacketPerChunk, 0 ≤ dataOffset id seq) ∧
      ∀ other pos, 0 ≤ other → OffsetsExact other → other ≠ id → Touches id pos →
        ¬ Touches other pos) ↔ id ≤ 4095 := by
  constructor
  · rintro ⟨⟨h, -⟩, -⟩
    have hfits : chunkOffset id < 2 ^ 31 := Int.bmod_lt (by decide)
    rw [h.output, btChunkSize] at hfits
    omega
  · intro hle
    have h := offsets_exact h0 hle
    refine ⟨⟨h, ?_, fun seq hseq => ?_⟩, fun other pos h0' h' hne => h.apart h' h0 h0' hne⟩
    · rw [h.output]
      exact Int.mul_nonneg h0 (by decide)
    · rw [h.master seq hseq]
      exact Int.add_nonneg (Int.mul_nonneg h0 (by decide)) (Int.natCast_nonneg _)

/-- The last chunk of the first 2 GiB. -/
theorem offsets_exact_last : OffsetsExact 4095 :=
  ((offsets_exact_iff (by decide) (by decide)).mpr (by decide)).1.1

/-- Chunk 4096 is read and saved where chunk 0 is. -/
theorem offset_wraps : ¬ OffsetsExact 4096 ∧ chunkOffset 4096 = -2 ^ 31 ∧
    (∀ (env : Env) stack, chunkData env stack 4096 0 = chunkData env stack 0 0) ∧
    ∀ file buf written, writeFile file buf btChunkSize (chunkOffset 4096) written =
      writeFile file buf btChunkSize (chunkOffset 0) written := by
  refine ⟨fun h => absurd h.output (by decide), by decide, fun env stack => ?_,
    fun file buf written => ?_⟩
  · rw [chunkData, chunkData, readFile, readFile,
      show (dataOffset 4096 0).toNat = (dataOffset 0 0).toNat by decide]
  · rw [writeFile, writeFile, show (chunkOffset 4096).toNat = (chunkOffset 0).toNat by decide]

end Bittorrent
