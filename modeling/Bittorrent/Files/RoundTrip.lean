import Bittorrent.Files.Records

/-!
# Printing and parsing

What `make_chunks` prints of a list of hashes is a file of records, each of them read at once, so both
parsers give the hashes back in their order (`parse_printed`). It rests on two inverses, of the decimal
numbers and of the hex digits.

Printing and scanning are inverse on a digit by computation, on a number by induction on its tenth
(`decimal_eq`, `decimalValue_decimal`), and on a hash byte by byte (`hex2binary_binary2hex`). A printed line
is then the text of a record, `printedRecord`, and short enough for one `fgets`, so that `parse_printed` is
`parseLines_ok` for the printed records.
-/

namespace Bittorrent

/-! ## Decimal numbers -/

theorem decimal_eq (n : Nat) :
    decimal n = (if n < 10 then [] else decimal (n / 10)) ++ [UInt8.ofNat (48 + n % 10)] := by
  rw [decimal, Nat.toDigits_eq_if (by decide)]
  split_ifs with hn
  · rw [List.map_singleton, Nat.toNat_digitChar_of_lt_ten hn, Nat.mod_eq_of_lt hn, List.nil_append]
  · rw [List.map_append, List.map_singleton, Nat.toNat_digitChar_of_lt_ten (Nat.mod_lt n (by decide)),
      decimal]

theorem decimal_ne_nil (n : Nat) : decimal n ≠ [] := by
  rw [decimal_eq]
  exact List.append_ne_nil_of_right_ne_nil _ (List.cons_ne_nil _ _)

theorem isdigit_ofNat_all : ∀ d < 10, isdigit (UInt8.ofNat (48 + d)) = true ∧
    (UInt8.ofNat (48 + d)).toNat - 48 = d := by
  decide

theorem isdigit_of_mem_decimal (n : Nat) : ∀ c ∈ decimal n, isdigit c = true := by
  induction n using Nat.strong_induction_on with
  | _ n ih =>
    intro c hc
    rw [decimal_eq] at hc
    split_ifs at hc with hn
    · rw [List.mem_singleton.mp hc]
      exact (isdigit_ofNat_all _ (Nat.mod_lt n (by decide))).1
    · rcases List.mem_append.mp hc with hc | hc
      · exact ih (n / 10) (by omega) c hc
      · rw [List.mem_singleton.mp hc]
        exact (isdigit_ofNat_all _ (Nat.mod_lt n (by decide))).1

theorem decimalValue_append (digits : List UInt8) (c : UInt8) :
    decimalValue (digits ++ [c]) = 10 * decimalValue digits + (c.toNat - 48) := by
  rw [decimalValue, List.foldl_append]
  rfl

theorem decimalValue_decimal (n : Nat) : decimalValue (decimal n) = n := by
  induction n using Nat.strong_induction_on with
  | _ n ih =>
    have hdigit := (isdigit_ofNat_all _ (Nat.mod_lt n (by decide))).2
    rw [decimal_eq, decimalValue_append, hdigit]
    split_ifs with hn
    · rw [show decimalValue [] = 0 from rfl]
      omega
    · rw [ih (n / 10) (by omega)]
      omega

theorem decimal_length_le {n : Nat} (hn : n < 10 ^ 10) : (decimal n).length ≤ 10 := by
  rw [decimal, List.length_map]
  exact (Nat.length_toDigits_le_iff (by decide) (by decide)).mpr hn

/-! ## Hex -/

theorem hexDigit_all : ∀ n < 16, isxdigit (hexDigit n) = true ∧ hex2binaryDigit (hexDigit n) = UInt8.ofNat n := by
  decide

theorem hex2binary_formatByte (b : UInt8) :
    hex2binaryDigit (hexDigit (b.toNat / 16)) <<< 4 ||| hex2binaryDigit (hexDigit (b.toNat % 16)) = b := by
  have hlt := b.toNat_lt
  have hhigh : b.toNat / 16 < 16 := by omega
  have hlow : b.toNat % 16 < 16 := Nat.mod_lt _ (by decide)
  rw [(hexDigit_all _ hhigh).2, (hexDigit_all _ hlow).2, nibbles_all _ hhigh _ hlow, Nat.div_add_mod,
    UInt8.ofNat_toNat]

theorem binary2hex_length (buf : List UInt8) : (binary2hex buf).length = 2 * buf.length := by
  induction buf with
  | nil => rfl
  | cons b buf ih =>
    rw [binary2hex, List.flatMap_cons, List.length_append, ← binary2hex, ih, List.length_cons]
    simp only [formatByte, List.length_cons, List.length_nil]
    omega

theorem binary2hex_hash (hash : Hash) : (binary2hex hash.val).length = 40 := by
  rw [binary2hex_length, hash.property]
  rfl

theorem isxdigit_of_mem_binary2hex (buf : List UInt8) : ∀ c ∈ binary2hex buf, isxdigit c = true := by
  intro c hc
  obtain ⟨b, -, hb⟩ := List.mem_flatMap.mp hc
  have hlt := b.toNat_lt
  simp only [formatByte, List.mem_cons, List.not_mem_nil, or_false] at hb
  rcases hb with rfl | rfl
  · exact (hexDigit_all _ (by omega)).1
  · exact (hexDigit_all _ (by omega)).1

theorem binary2hex_getD {buf : List UInt8} : ∀ {k : Nat} (hk : k < buf.length),
    (binary2hex buf).getD (2 * k) 0 = hexDigit (buf[k].toNat / 16) ∧
      (binary2hex buf).getD (2 * k + 1) 0 = hexDigit (buf[k].toNat % 16) := by
  induction buf with
  | nil =>
    intro k hk
    cases hk
  | cons b buf ih =>
    intro k hk
    cases k with
    | zero => exact ⟨rfl, rfl⟩
    | succ k => exact ih (Nat.lt_of_succ_lt_succ hk)

theorem hex2binary_binary2hex (buf : List UInt8) (hex : Memory)
    (hhex : ∀ k < 2 * buf.length, hex k = (binary2hex buf).getD k 0) :
    hex2binary hex (2 * buf.length) = buf := by
  refine List.ext_getElem (by simp [hex2binary]) fun k _ hk => ?_
  obtain ⟨hhigh, hlow⟩ := binary2hex_getD hk
  simp only [hex2binary, List.getElem_map, List.getElem_range]
  rw [hhex _ (by omega), hhex _ (by omega), hhigh, hlow, hex2binary_formatByte]

/-! ## A printed table -/

theorem toInt32_bounds (x : Int) : -2 ^ 31 ≤ toInt32 x ∧ toInt32 x < 2 ^ 31 := by
  have hle := Int.le_bmod (x := x) (m := 2 ^ 32) (by decide)
  have hlt := Int.bmod_lt (x := x) (m := 2 ^ 32) (by decide)
  rw [toInt32]
  omega

/-- The record that is printed for chunk `i`. -/
def printedRecord (i : Int) (hash : Hash) : Record where
  negative := decide (toInt32 i < 0)
  digits := decimal (toInt32 i).natAbs
  hex := binary2hex hash.val
  digits_ne_nil := decimal_ne_nil _
  digits_ok := isdigit_of_mem_decimal _
  hex_length := binary2hex_hash hash
  hex_ok := isxdigit_of_mem_binary2hex _
  fits := by
    have hbounds := toInt32_bounds i
    rw [decimalValue_decimal]
    simp only [decide_eq_true_eq]
    split_ifs <;> omega

variable (i : Int) (hash : Hash)

theorem printedRecord_id : (printedRecord i hash).id = toInt32 i := by
  rw [Record.id, printedRecord, decimalValue_decimal]
  simp only [decide_eq_true_eq]
  split_ifs <;> omega

theorem printedRecord_hash : (printedRecord i hash).hash = hash := by
  have hhex := hex2binary_record (printedRecord i hash) (m := fun k => (printedRecord i hash).hex.getD k 0)
    fun _ _ => rfl
  have hback := hex2binary_binary2hex hash.val (fun k => (printedRecord i hash).hex.getD k 0) fun _ _ => rfl
  rw [hash.property] at hback
  exact Subtype.ext (hhex.symm.trans hback)

theorem chunkLine_eq : chunkLine (toInt32 i) hash = (printedRecord i hash).text ++ [newline] := by
  rw [chunkLine, formatInt, Record.text, printedRecord]
  simp only [decide_eq_true_eq]
  split_ifs <;> simp

theorem chunkLine_length_le : (chunkLine (toInt32 i) hash).length ≤ 254 := by
  have hbounds := toInt32_bounds i
  have hdigits := decimal_length_le (n := (toInt32 i).natAbs) (by omega)
  have hhex := binary2hex_hash hash
  rw [chunkLine, formatInt]
  split_ifs <;> simp only [List.length_append, List.length_cons, List.length_nil, hhex] <;> omega

/-- What a parser stores for it. -/
def roundTripChunk (outf : Option String) : Chunk where
  id := toInt32 i
  hash := hash
  state := if outf.isSome then .notStarted else .owned
  data := none
  receivedSeqNumber := 0
  receivedByteNumber := 0

theorem printedRecord_chunk (outf : Option String) :
    (printedRecord i hash).chunk outf = roundTripChunk i hash outf := by
  rw [Record.chunk, printedRecord_id, printedRecord_hash, roundTripChunk]

/-! ## The file -/

section

variable (hashes : List Hash)

def printedRecords : List Record := hashes.mapIdx fun i hash => printedRecord i hash

theorem withNewlines_terminated (texts : List (List UInt8)) :
    withNewlines true texts = texts.map (· ++ [newline]) := by
  induction texts using withNewlines.induct with
  | case1 => rfl
  | case2 text => rfl
  | case3 text text' texts ih => rw [withNewlines, ih, List.map_cons (l := text' :: texts)]

theorem map_mapIdx {α β γ : Type} (f : ℕ → α → β) (g : β → γ) (l : List α) :
    (l.mapIdx f).map g = l.mapIdx fun i a => g (f i a) :=
  List.ext_getElem (by simp) fun k _ _ => by simp

theorem printed_lines :
    withNewlines true ((printedRecords hashes).map Record.text) =
      hashes.mapIdx fun i hash => chunkLine (toInt32 i) hash := by
  rw [withNewlines_terminated, printedRecords, map_mapIdx, map_mapIdx]
  simp only [chunkLine_eq]

theorem fileLines_printChunks :
    fileLines (printChunks hashes) = withNewlines true ((printedRecords hashes).map Record.text) := by
  have hlines : ∀ line ∈ withNewlines true ((printedRecords hashes).map Record.text), IsLine line := by
    refine isLine_withNewlines (fun text hmem => ?_) (Or.inl rfl)
    obtain ⟨r, -, rfl⟩ := List.mem_map.mp hmem
    exact fun hmem => (r.text_plain _ hmem).2 rfl
  have hfits : ∀ line ∈ withNewlines true ((printedRecords hashes).map Record.text), line.length ≤ 254 := by
    intro line hmem
    rw [printed_lines] at hmem
    obtain ⟨i, hi, rfl⟩ := List.mem_mapIdx.mp hmem
    exact chunkLine_length_le _ _
  rw [printChunks, ← printed_lines, fileLines_withNewlines, flatMap_fileLines hlines hfits]

def roundTripTable (outf : Option String) : Request where
  filename := outf
  chunks := hashes.mapIdx fun i hash => roundTripChunk i hash outf

theorem parseLines_printChunks (stale : Stale) (outf : Option String) :
    parseLines stale outf (fileLines (printChunks hashes)) = .ok (some (roundTripTable hashes outf)) := by
  have hparse := (parsesExactly_records stale outf true (printedRecords hashes)).1
  rw [fileLines_printChunks, hparse, printedRecords, map_mapIdx]
  simp only [printedRecord_chunk, roundTripTable]

theorem skipLine_header {header rest : List UInt8} (hheader : newline ∉ header)
    (hlength : header.length ≤ 253) : skipLine (header ++ newline :: rest) = rest := by
  rw [skipLine, fgets_eq (by simp), takeLine_line hheader (by omega)]

/-- Both parsers return the printed table, the second one behind two header lines; the ids are those of the
`int i` that is printed. `hex2binary` undoes `binary2hex`. -/
theorem parse_printed (stale : Stale) (outf : Option String) :
    parseHasGetChunkFile stale (some (printChunks hashes)) outf =
      .ok (some (roundTripTable hashes outf)) ∧
    (∀ file, skipLine (skipLine file) = printChunks hashes →
      parseTotalChunkFile stale (some file) outf = .ok (some (roundTripTable hashes outf))) ∧
    (∀ header header' : List UInt8, newline ∉ header → newline ∉ header' →
      header.length ≤ 253 → header'.length ≤ 253 →
      parseTotalChunkFile stale
          (some (header ++ newline :: (header' ++ newline :: printChunks hashes))) outf =
        .ok (some (roundTripTable hashes outf))) ∧
    (∀ i : ℕ, i < 2 ^ 31 → (toInt32 i) = i) ∧
    ∀ (buf : List UInt8) (hex : Memory), (∀ k < 2 * buf.length, hex k = (binary2hex buf).getD k 0) →
      hex2binary hex (2 * buf.length) = buf := by
  have hparse := parseLines_printChunks hashes stale outf
  have hbehind : ∀ file, skipLine (skipLine file) = printChunks hashes →
      parseTotalChunkFile stale (some file) outf = .ok (some (roundTripTable hashes outf)) := by
    intro file hfile
    rw [parseTotalChunkFile, hfile, hparse]
  refine ⟨hparse, hbehind, ?_, ?_, hex2binary_binary2hex⟩
  · intro header header' hheader hheader' hlength hlength'
    apply hbehind
    rw [skipLine_header hheader hlength, skipLine_header hheader' hlength']
  · intro i hi
    exact toInt32_eq (Int.natCast_nonneg i) (by omega)

end

/-- Two chunks behind the lines "File: a" and "Chunks:". -/
theorem parse_printed_two :
    parseTotalChunkFile ⟨fun _ => 0, fun _ => 0⟩
        (some ([70, 105, 108, 101, 58, 32, 97] ++ newline :: ([67, 104, 117, 110, 107, 115, 58] ++
          newline :: printChunks [⟨List.replicate 20 0xAB, rfl⟩, ⟨List.replicate 20 0, rfl⟩]))) none =
      .ok (some (roundTripTable [⟨List.replicate 20 0xAB, rfl⟩, ⟨List.replicate 20 0, rfl⟩] none)) :=
  (parse_printed [⟨List.replicate 20 0xAB, rfl⟩, ⟨List.replicate 20 0, rfl⟩] ⟨fun _ => 0, fun _ => 0⟩
    none).2.2.1 _ _ (by decide) (by decide) (by decide) (by decide)

end Bittorrent
