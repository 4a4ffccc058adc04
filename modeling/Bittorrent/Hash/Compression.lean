import Bittorrent.Model.Sha
import Mathlib.Tactic.IntervalCases

/-!
# A block of SHA-1

`SHA1Guts` computes the compression function of the standard: its two forms of the round functions agree
with the standard's bit by bit, swapping the bytes of a little-endian word gives the big-endian one, and
the loop that moves four pointers over `buf` is the recurrence of the message schedule.

The words are compared bit by bit, by extensionality: `f0To19_eq` and `f40To59_eq` are the two identities
that are not definitions, `byteswap_bytes` the one about byte order. The loop over `buf` and the loop over
the rounds are inductions on their counters with the position in the schedule as parameter
(`extendWords_eq`, `rounds_eq`); the four calls of the second are the four functions of the standard.
-/

namespace Bittorrent

open Sha1

variable {m : Nat → UInt32} {v : Words} {buffer : Memory}

/-! ## Words -/

theorem uint32_ext {x y : UInt32} (h : ∀ i < 32, x.toBitVec.getLsbD i = y.toBitVec.getLsbD i) : x = y :=
  UInt32.toBitVec_inj.mp (BitVec.eq_of_getLsbD_eq h)

theorem f0To19_eq : f0To19 = choose := by
  funext x y z
  refine uint32_ext fun i hi => ?_
  simp only [f0To19, choose, UInt32.toBitVec_xor, UInt32.toBitVec_and, UInt32.toBitVec_not,
    BitVec.getLsbD_xor, BitVec.getLsbD_and, BitVec.getLsbD_not, hi]
  cases x.toBitVec.getLsbD i <;> cases y.toBitVec.getLsbD i <;> cases z.toBitVec.getLsbD i <;> rfl

theorem f40To59_eq : f40To59 = majority := by
  funext x y z
  refine uint32_ext fun i hi => ?_
  simp only [f40To59, majority, UInt32.toBitVec_xor, UInt32.toBitVec_and, UInt32.toBitVec_or,
    BitVec.getLsbD_xor, BitVec.getLsbD_and, BitVec.getLsbD_or]
  cases x.toBitVec.getLsbD i <;> cases y.toBitVec.getLsbD i <;> cases z.toBitVec.getLsbD i <;> rfl

theorem rotl_one (x : UInt32) : rotl x 1 = rotateLeft 1 x := rfl

theorem rotl_five (x : UInt32) : rotl x 5 = rotateLeft 5 x := rfl

theorem rotl_thirty (x : UInt32) : rotl x 30 = rotateLeft 30 x := rfl

theorem number_four (b₀ b₁ b₂ b₃ : UInt8) :
    number [b₀, b₁, b₂, b₃] =
      2 ^ 8 * (2 ^ 8 * (2 ^ 8 * b₀.toNat + b₁.toNat) + b₂.toNat) + b₃.toNat := by
  simp only [number, List.foldl_cons, List.foldl_nil]
  omega

theorem testBit_number (b₀ b₁ b₂ b₃ : UInt8) (i : Nat) :
    (number [b₀, b₁, b₂, b₃]).testBit i =
      if i < 8 then b₃.toBitVec.getLsbD i
      else if i - 8 < 8 then b₂.toBitVec.getLsbD (i - 8)
      else if i - 8 - 8 < 8 then b₁.toBitVec.getLsbD (i - 8 - 8)
      else b₀.toBitVec.getLsbD (i - 8 - 8 - 8) := by
  rw [number_four, Nat.testBit_two_pow_mul_add _ b₃.toNat_lt, Nat.testBit_two_pow_mul_add _ b₂.toNat_lt,
    Nat.testBit_two_pow_mul_add _ b₁.toNat_lt]
  rfl

theorem byteswap_bytes (b₀ b₁ b₂ b₃ : UInt8) :
    byteswap (b₀.toUInt32 ||| b₁.toUInt32 <<< 8 ||| b₂.toUInt32 <<< 16 ||| b₃.toUInt32 <<< 24) =
      UInt32.ofNat (number [b₀, b₁, b₂, b₃]) := by
  refine uint32_ext fun i hi => ?_
  have hright : (UInt32.ofNat (number [b₀, b₁, b₂, b₃])).toBitVec.getLsbD i =
      (number [b₀, b₁, b₂, b₃]).testBit i := by
    rw [UInt32.toBitVec_ofNat', BitVec.getLsbD_ofNat, decide_eq_true hi, Bool.true_and]
  rw [hright, testBit_number]
  -- one case for each bit
  interval_cases i <;> simp [byteswap, rotr, rotl]

/-! ## The message schedule -/

theorem scheduleWord_succ (m : Nat → UInt32) (k : Nat) :
    scheduleWord m (16 + k) =
      rotateLeft 1 (scheduleWord m (13 + k) ^^^ scheduleWord m (8 + k) ^^^ scheduleWord m (2 + k) ^^^
        scheduleWord m k) := by
  rw [scheduleWord, if_neg (by omega), show 16 + k - 3 = 13 + k by omega, show 16 + k - 8 = 8 + k by omega,
    show 16 + k - 14 = 2 + k by omega, show 16 + k - 16 = k by omega]

theorem getD_map_range (f : Nat → UInt32) {i n : Nat} (h : i < n) : ((List.range n).map f).getD i 0 = f i := by
  simp [List.getD_eq_getElem?_getD, h]

theorem extendWords_eq (m : Nat → UInt32) (i k : Nat) :
    extendWords i k ((List.range (16 + k)).map (scheduleWord m)) =
      (List.range (16 + k + i)).map (scheduleWord m) := by
  induction i generalizing k with
  | zero => rfl
  | succ i ih =>
    have hnext : ((List.range (16 + k)).map (scheduleWord m)) ++ [scheduleWord m (16 + k)] =
        (List.range (16 + (k + 1))).map (scheduleWord m) := by
      rw [← Nat.add_assoc, List.range_succ, List.map_append, List.map_singleton]
    rw [extendWords, getD_map_range _ (by omega), getD_map_range _ (by omega), getD_map_range _ (by omega),
      getD_map_range _ (by omega), rotl_one, ← scheduleWord_succ, hnext, ih]
    congr 2
    omega

theorem readBytes_four (m : Memory) (off : Nat) :
    readBytes m off 4 = [m off, m (off + 1), m (off + 2), m (off + 3)] := rfl

theorem loadWords_eq (buffer : Memory) :
    loadWords buffer =
      (List.range 16).map (scheduleWord (blockWord (readBytes buffer 0 sha1BlockSize))) := by
  refine List.map_congr_left fun i hi => ?_
  have hi := List.mem_range.mp hi
  rw [scheduleWord, if_pos hi, blockWord, readBytes_slice, Nat.zero_add,
    show min 4 (sha1BlockSize - 4 * i) = 4 by simp only [sha1BlockSize]; omega, readBytes_four,
    bufferWord, byteswap_bytes]

/-! ## The rounds -/

theorem rounds_eq {f : UInt32 → UInt32 → UInt32 → UInt32} {k : UInt32} (start : Nat)
    (hstart : start + 20 ≤ 80)
    (h : ∀ t, start ≤ t → t < start + 20 → roundFunction t = f ∧ roundConstant t = k) (v : Words) :
    ((((List.range 80).map (scheduleWord m)).drop start).take 20).foldl (doRound f k) v =
      (List.range' start 20).foldl (Sha1.round m) v := by
  have hslice : (((List.range 80).map (scheduleWord m)).drop start).take 20 =
      (List.range' start 20).map (scheduleWord m) := by
    refine List.ext_getElem (by simp only [List.length_take, List.length_drop, List.length_map,
      List.length_range, List.length_range']; omega) fun i _ _ => ?_
    simp
  rw [hslice, List.foldl_map]
  refine List.foldl_ext _ _ _ fun v t ht => ?_
  obtain ⟨hle, hlt⟩ := List.mem_range'_1.mp ht
  obtain ⟨hf, hk⟩ := h t hle hlt
  have hsum : doRound f k v (scheduleWord m t) = Sha1.round m v t := by
    rw [doRound, Sha1.round, hf, hk, rotl_five, rotl_thirty]
    simp only [Words.mk.injEq, and_true]
    ac_rfl
  exact hsum

section

variable (t : Nat)

theorem roundFunction_first (_ : 0 ≤ t) (h : t < 0 + 20) :
    roundFunction t = f0To19 ∧ roundConstant t = k0To19 := by
  have hlt : t < 20 := by omega
  rw [roundFunction, roundConstant, if_pos hlt, if_pos hlt, f0To19_eq]
  exact ⟨rfl, rfl⟩

theorem roundFunction_second (hle : 20 ≤ t) (h : t < 20 + 20) :
    roundFunction t = f20To39 ∧ roundConstant t = k20To39 := by
  have hlt : t < 40 := by omega
  have hge : ¬ t < 20 := by omega
  rw [roundFunction, roundConstant, if_neg hge, if_neg hge, if_pos hlt, if_pos hlt]
  exact ⟨rfl, rfl⟩

theorem roundFunction_third (hle : 40 ≤ t) (h : t < 40 + 20) :
    roundFunction t = f40To59 ∧ roundConstant t = k40To59 := by
  have hlt : t < 60 := by omega
  have hge : ¬ t < 20 ∧ ¬ t < 40 := by omega
  rw [roundFunction, roundConstant, if_neg hge.1, if_neg hge.1, if_neg hge.2, if_neg hge.2, if_pos hlt,
    if_pos hlt, f40To59_eq]
  exact ⟨rfl, rfl⟩

theorem roundFunction_fourth (hle : 60 ≤ t) (_ : t < 60 + 20) :
    roundFunction t = f60To79 ∧ roundConstant t = k60To79 := by
  have hge : ¬ t < 20 ∧ ¬ t < 40 ∧ ¬ t < 60 := by omega
  rw [roundFunction, roundConstant, if_neg hge.1, if_neg hge.1, if_neg hge.2.1, if_neg hge.2.1,
    if_neg hge.2.2, if_neg hge.2.2]
  exact ⟨rfl, rfl⟩

end

theorem sha1Guts_eq (hash : Words) (buffer : Memory) :
    sha1Guts hash buffer = compress hash (readBytes buffer 0 sha1BlockSize) := by
  have hbuf : extendWords 64 0 (loadWords buffer) =
      (List.range 80).map (scheduleWord (blockWord (readBytes buffer 0 sha1BlockSize))) := by
    rw [loadWords_eq, ← extendWords_eq _ 64 0]
  have hrange : List.range 80 =
      List.range' 0 20 ++ List.range' 20 20 ++ List.range' 40 20 ++ List.range' 60 20 := rfl
  rw [sha1Guts, compress, hbuf, hrange]
  simp only [List.foldl_append]
  rw [← hrange, ← rounds_eq 0 (by decide) roundFunction_first, ← rounds_eq 20 (by decide) roundFunction_second,
    ← rounds_eq 40 (by decide) roundFunction_third, ← rounds_eq 60 (by decide) roundFunction_fourth]
  rfl

end Bittorrent
