import Bittorrent.Hash.Compression

/-!
# SHA-1 of a message given in pieces

A context between two calls knows of the message so far the hash of its complete blocks, the bytes that
follow them, which are in the buffer, and the length (`Fed`). Each pass of the loop of `SHA1Update` keeps
this, so the pieces do not matter; `SHA1Final` feeds the padding and the length the same way.

A pass of the loop fills the buffer and compresses it, or runs out of bytes (`Fed.copy`); its induction is
on what is left of the piece (`Fed.update`), and that of the calls on the pieces (`Fed.updates`). The buffer
is described by the bytes of the message only, so what it held before does not come up. For the end,
`Fed.padding` counts: the padding brings the buffer to eight bytes before a block's end, and the length
fills them.
-/

namespace Bittorrent

open Sha1

variable {sc : Sha1Context} {message data : List UInt8}

/-! ## Bytes of numbers -/

theorem uint8_ext {x y : UInt8} (h : ∀ i < 8, x.toBitVec.getLsbD i = y.toBitVec.getLsbD i) : x = y :=
  UInt8.toBitVec_inj.mp (BitVec.eq_of_getLsbD_eq h)

theorem toUInt8_shiftRight (x : UInt64) {k : Nat} (hk : k < 64) :
    (x >>> UInt64.ofNat k).toUInt8 = UInt8.ofNat (x.toNat / 2 ^ k) := by
  apply UInt8.toNat_inj.mp
  simp [Nat.shiftRight_eq_div_pow, Nat.mod_eq_of_lt hk]

theorem getLsbD_byteswap (x : UInt32) {j : Nat} (hj : j < 32) :
    (byteswap x).toBitVec.getLsbD j = x.toBitVec.getLsbD (8 * (3 - j / 8) + j % 8) := by
  interval_cases j <;> simp [byteswap, rotr, rotl]

theorem getLsbD_byteswap64 (x : UInt64) {j : Nat} (hj : j < 64) :
    (byteswap64 x).toBitVec.getLsbD j = x.toBitVec.getLsbD (8 * (7 - j / 8) + j % 8) := by
  have hhalves : (byteswap64 x).toBitVec =
      (byteswap x.toUInt32).toBitVec.setWidth 64 <<< 32 |||
        (byteswap (x >>> 32).toUInt32).toBitVec.setWidth 64 := rfl
  have hlow : x.toUInt32.toBitVec = x.toBitVec.setWidth 32 := rfl
  have hhigh : (x >>> 32).toUInt32.toBitVec = (x.toBitVec >>> 32).setWidth 32 := rfl
  rw [hhalves, BitVec.getLsbD_or, BitVec.getLsbD_shiftLeft, BitVec.getLsbD_setWidth,
    BitVec.getLsbD_setWidth]
  rcases Nat.lt_or_ge j 32 with hlt | hge
  · have hbit : 8 * (3 - j / 8) + j % 8 < 32 := by omega
    have hplace : 32 + (8 * (3 - j / 8) + j % 8) = 8 * (7 - j / 8) + j % 8 := by omega
    rw [getLsbD_byteswap _ hlt, hhigh, BitVec.getLsbD_setWidth, BitVec.getLsbD_ushiftRight, hplace]
    simp [hlt, hj, hbit]
  · have hbit : 8 * (7 - j / 8) + j % 8 < 32 := by omega
    have hplace : 8 * (3 - (j - 32) / 8) + (j - 32) % 8 = 8 * (7 - j / 8) + j % 8 := by omega
    rw [getLsbD_byteswap x.toUInt32 (by omega), hlow, BitVec.getLsbD_setWidth, hplace,
      BitVec.getLsbD_of_ge _ j hge]
    simp [hj, hbit, show ¬ j < 32 by omega, show j - 32 < 64 by omega]

theorem bytes64_byteswap64 (x : UInt64) : bytes64 (byteswap64 x) = bigEndian 8 x.toNat := by
  refine List.map_congr_left fun k hk => ?_
  have hk := List.mem_range.mp hk
  rw [toUInt8_shiftRight _ (by omega)]
  refine uint8_ext fun i hi => ?_
  have hbyte : ∀ n : Nat, (UInt8.ofNat n).toBitVec.getLsbD i = n.testBit i := by
    intro n
    rw [UInt8.toBitVec_ofNat', BitVec.getLsbD_ofNat, decide_eq_true hi, Bool.true_and]
  have hbit := getLsbD_byteswap64 x (j := i + 8 * k) (by omega)
  rw [show 8 * (7 - (i + 8 * k) / 8) + (i + 8 * k) % 8 = i + 8 * (8 - 1 - k) by omega] at hbit
  rw [hbyte, hbyte, Nat.testBit_div_two_pow, Nat.testBit_div_two_pow]
  exact hbit

theorem finalBytes_eq (x : UInt32) : finalBytes x = bigEndian 4 x.toNat := by
  have hshift : ∀ k < 32, (x >>> UInt32.ofNat k).toUInt8 = UInt8.ofNat (x.toNat / 2 ^ k) := by
    intro k hk
    apply UInt8.toNat_inj.mp
    simp [Nat.shiftRight_eq_div_pow, Nat.mod_eq_of_lt hk]
  have hbytes : bigEndian 4 x.toNat = [UInt8.ofNat (x.toNat / 2 ^ 24), UInt8.ofNat (x.toNat / 2 ^ 16),
      UInt8.ofNat (x.toNat / 2 ^ 8), UInt8.ofNat (x.toNat / 2 ^ 0)] := rfl
  rw [hbytes, ← hshift 24 (by decide), ← hshift 16 (by decide), ← hshift 8 (by decide),
    ← hshift 0 (by decide)]
  simp [finalBytes]

theorem hash_eq_output (v : Words) : v.hash.val = output v := by
  simp only [Words.hash, output, finalBytes_eq, List.flatMap_cons, List.flatMap_nil, List.append_nil,
    List.append_assoc]

/-! ## Feeding a context -/

/-- What the context knows of the message. -/
structure Fed (message : List UInt8) (sc : Sha1Context) : Prop where
  absorbed : Absorbed compress blockSize initial message (sc.hash, readBytes sc.buffer 0 sc.bufferLength)
  length : sc.totalLength = UInt64.ofNat (8 * message.length)

theorem fed_init (stack : Memory) : Fed [] (sha1Init stack) := ⟨.nil (by decide), rfl⟩

theorem Fed.bufferLength (h : Fed message sc) : sc.bufferLength = message.length % blockSize := by
  have hlength := h.absorbed.length
  rwa [readBytes_length] at hlength

theorem readBytes_copy (buffer : Memory) (off : Nat) {n : Nat} (hn : n ≤ data.length) :
    readBytes (copyBytes buffer off (fun k => data.getD k 0) n) 0 (off + n) =
      readBytes buffer 0 off ++ data.take n := by
  have hdata : readBytes (fun k => data.getD k 0) 0 n = data.take n := by
    refine List.ext_getElem (by simp [hn]) fun k hk _ => ?_
    rw [readBytes_length] at hk
    simp [readBytes, List.getD_eq_getElem?_getD, show k < data.length by omega]
  rw [readBytes_append, readBytes_copyBytes_of_disjoint (Or.inl (by omega)), Nat.zero_add,
    readBytes_copyBytes, hdata]

theorem Fed.copy (h : Fed message sc) (data : List UInt8) :
    Fed (message ++ data.take (sc.toCopy data)) (sc.copy data) := by
  have hroom := sc.room
  have hle : sc.toCopy data ≤ data.length := Nat.min_le_right _ _
  have hbuffer := readBytes_copy sc.buffer sc.bufferLength hle
  have hlength : sc.totalLength + UInt64.ofNat (sc.toCopy data * 8) =
      UInt64.ofNat (8 * (message ++ data.take (sc.toCopy data)).length) := by
    rw [h.length, ← UInt64.ofNat_add, List.length_append, List.length_take_of_le hle, Nat.mul_add,
      Nat.mul_comm (sc.toCopy data)]
  have hcount : (readBytes sc.buffer 0 sc.bufferLength ++ data.take (sc.toCopy data)).length =
      sc.bufferLength + sc.toCopy data := by
    rw [List.length_append, readBytes_length, List.length_take_of_le hle]
  by_cases hfull : sc.bufferLength + sc.toCopy data = sha1BlockSize
  · have hdone := h.absorbed.complete (by decide) (hcount.trans hfull)
    rw [← hbuffer, hfull, ← sha1Guts_eq] at hdone
    rw [Sha1Context.copy, dif_pos hfull]
    exact ⟨hdone, hlength⟩
  · have hlt : sc.bufferLength + sc.toCopy data < blockSize := by
      simp only [Sha1Context.toCopy, sha1BlockSize, blockSize] at hroom hfull ⊢
      omega
    have hmore := h.absorbed.grow (by decide) (hcount ▸ hlt)
    rw [← hbuffer] at hmore
    rw [Sha1Context.copy, dif_neg hfull]
    exact ⟨hmore, hlength⟩

theorem Fed.update (h : Fed message sc) (data : List UInt8) :
    Fed (message ++ data) (sha1Update sc data) := by
  induction sc, data using sha1Update.induct generalizing message with
  | case1 sc =>
    rw [sha1Update, if_pos rfl, List.append_nil]
    exact h
  | case2 sc data hne ih =>
    have hrest := ih (h.copy data)
    rw [List.append_assoc, List.take_append_drop] at hrest
    rw [sha1Update, if_neg hne]
    exact hrest

theorem Fed.updates (h : Fed message sc) (pieces : List (List UInt8)) :
    Fed (message ++ pieces.flatten) (pieces.foldl sha1Update sc) := by
  induction pieces generalizing message sc with
  | nil => rwa [List.flatten_nil, List.append_nil]
  | cons data pieces ih =>
    have hrest := ih (h.update data)
    rwa [List.append_assoc] at hrest

/-! ## The digest -/

theorem Fed.padding (h : Fed message sc) :
    padding.take sc.toPad = 0x80 :: List.replicate (zeros message.length) 0 := by
  have hpad : sc.toPad = zeros message.length + 1 := by
    rw [Sha1Context.toPad, h.bufferLength, zeros, show blockSize = 64 from rfl]
    split_ifs <;> omega
  have hle : zeros message.length ≤ 63 := Nat.le_of_lt_succ (Nat.mod_lt _ (by decide))
  rw [hpad, Bittorrent.padding, List.take_succ_cons, List.take_replicate, Nat.min_eq_left hle]

theorem Fed.final (h : Fed message sc) : (sha1Final sc).val = digest message := by
  have hend := (h.update (Bittorrent.padding.take sc.toPad)).update (bytes64 (byteswap64 sc.totalLength))
  have hlength : sc.totalLength.toNat = 8 * message.length % 2 ^ 64 := by rw [h.length]; rfl
  rw [h.padding, bytes64_byteswap64, hlength] at hend
  have hhash := hend.absorbed.1
  rw [sha1Final, hash_eq_output, digest, pad]
  simp only [h.padding, bytes64_byteswap64, hlength]
  exact congrArg output hhash

/-- A message may be given to `SHA1Update` in any pieces: `SHA1Final` writes the SHA-1 digest of all of it,
whatever was in the buffer, and every byte of the padded message is in a block. -/
theorem sha1_digest (stack : Memory) (pieces : List (List UInt8)) :
    (sha1Final (pieces.foldl sha1Update (sha1Init stack))).val = digest pieces.flatten ∧
      (blocks blockSize (pad pieces.flatten)).flatten = pad pieces.flatten := by
  have hfed := (fed_init stack).updates pieces
  rw [List.nil_append] at hfed
  exact ⟨hfed.final, flatten_blocks_pad _⟩

theorem shahash_eq (stack : Memory) (str : List UInt8) : (shahash stack str).val = digest str := by
  have hfed := (fed_init stack).update str
  rw [List.nil_append] at hfed
  exact hfed.final

example : (shahash (fun _ => 0) [97, 98, 99]).val =
    [0xa9, 0x99, 0x3e, 0x36, 0x47, 0x06, 0x81, 0x6a, 0xba, 0x3e, 0x25, 0x71, 0x78, 0x50, 0xc2, 0x6c, 0x9c,
      0xd0, 0xd8, 0x9d] := by
  decide +kernel

end Bittorrent
