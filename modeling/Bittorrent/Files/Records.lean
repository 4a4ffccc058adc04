import Bittorrent.Files.Reading
import Bittorrent.Files.Scanning

/-!
# Records and comments

A chunk file is made of records, `<id> <40 hex digits>`, and of comments. What a record stands for is said
without the parsers (`Record.id`, `Record.hash`). The counting pass skips comments and the filling pass does
not, so the parsers return the records of exactly those files that have no comment, and no line that
`fgets` reads in two (`parse_records_iff`); a comment makes the filling pass write past the table.

One line is scanned in one lemma (`scanEntry_line`): the number ends at the space, the word at the newline,
and the word is forty hex digits, which `hex2binary` turns into the record's hash two by two. Both passes
are then inductions over the lines. The counting pass is the number of lines that do not begin with `#`, the
filling pass stores an entry for every line, so their results have the same length exactly if no line is a
comment; a line that is read in two pieces is an entry too many (`ParsesExactly.length_eq`). That is the one
direction, and `parseLines_ok` the other.
-/

namespace Bittorrent

variable {c : UInt8} {stale : Stale} {outf : Option String} {terminated : Bool}

/-! ## What a file says -/

/-- The value of a hex digit of either case. -/
def hexValue (c : UInt8) : Nat :=
  if isdigit c then c.toNat - 48 else if c < 97 then c.toNat - 55 else c.toNat - 87

/-- A line `<id> <40-hex>`: the id is a decimal `int`. -/
structure Record where
  negative : Bool
  digits : List UInt8
  hex : List UInt8
  digits_ne_nil : digits ≠ []
  digits_ok : ∀ c ∈ digits, isdigit c = true
  hex_length : hex.length = 40
  hex_ok : ∀ c ∈ hex, isxdigit c = true
  /-- The id is in the range of an `int`. -/
  fits : decimalValue digits < 2 ^ 31 + (if negative then 1 else 0)

namespace Record

variable (r : Record)

def id : Int := if r.negative then -decimalValue r.digits else decimalValue r.digits

def text : List UInt8 :=
  (if r.negative then [minusSign] else []) ++ r.digits ++ space :: r.hex

def hash : Hash :=
  ⟨(List.range 20).map fun k =>
    UInt8.ofNat (16 * hexValue (r.hex.getD (2 * k) 0) + hexValue (r.hex.getD (2 * k + 1) 0)),
    by simp [sha1HashSize]⟩

/-- The chunk a record stands for. -/
def chunk (outf : Option String) : Chunk where
  id := r.id
  hash := r.hash
  state := if outf.isSome then .notStarted else .owned
  data := none
  receivedSeqNumber := 0
  receivedByteNumber := 0

end Record

inductive ChunkLine
  | record (r : Record)
  /-- A line that begins with '#'. -/
  | comment (text : List UInt8) (h : newline ∉ text)

namespace ChunkLine

def text : ChunkLine → List UInt8
  | record r => r.text
  | comment text _ => 35 :: text

def record? : ChunkLine → Option Record
  | record r => some r
  | comment _ _ => none

end ChunkLine

/-! ## Hex -/

theorem hex_all : ∀ n < 256, isxdigit (UInt8.ofNat n) = true →
    hex2binaryDigit (UInt8.ofNat n) = UInt8.ofNat (hexValue (UInt8.ofNat n)) ∧
      hexValue (UInt8.ofNat n) < 16 := by
  decide +kernel

theorem hex2binaryDigit_eq (h : isxdigit c = true) :
    hex2binaryDigit c = UInt8.ofNat (hexValue c) ∧ hexValue c < 16 := by
  have hall := hex_all c.toNat c.toNat_lt
  rw [UInt8.ofNat_toNat] at hall
  exact hall h

theorem nibbles_all : ∀ n < 16, ∀ m < 16,
    UInt8.ofNat n <<< 4 ||| UInt8.ofNat m = UInt8.ofNat (16 * n + m) := by
  decide +kernel

theorem hex2binary_pair {c' : UInt8} (h : isxdigit c = true) (h' : isxdigit c' = true) :
    hex2binaryDigit c <<< 4 ||| hex2binaryDigit c' =
      UInt8.ofNat (16 * hexValue c + hexValue c') := by
  obtain ⟨hc, hlt⟩ := hex2binaryDigit_eq h
  obtain ⟨hc', hlt'⟩ := hex2binaryDigit_eq h'
  rw [hc, hc', nibbles_all _ hlt _ hlt']

theorem Record.hex_getD (r : Record) {k : Nat} (hk : k < 40) : isxdigit (r.hex.getD k 0) = true := by
  have hlt : k < r.hex.length := r.hex_length.symm ▸ hk
  rw [List.getD_eq_getElem?_getD, List.getElem?_eq_getElem hlt, Option.getD_some]
  exact r.hex_ok _ (List.getElem_mem hlt)

theorem hex2binary_record (r : Record) {m : Memory} (hm : ∀ k < 40, m k = r.hex.getD k 0) :
    hex2binary m (sha1HashSize * 2) = r.hash.val := by
  rw [hex2binary, show sha1HashSize * 2 / 2 = 20 from rfl]
  dsimp only [Record.hash]
  refine List.map_congr_left fun k hk => ?_
  have hk : k < 20 := List.mem_range.mp hk
  rw [hm (2 * k) (by omega), hm (2 * k + 1) (by omega)]
  exact hex2binary_pair (r.hex_getD (by omega)) (r.hex_getD (by omega))

/-! ## Scanning a record -/

namespace Record

variable (r : Record)

theorem hex_ne_nil : r.hex ≠ [] := by
  intro h
  have hlength := r.hex_length
  rw [h] at hlength
  cases hlength

theorem text_plain : ∀ c ∈ r.text, c ≠ 0 ∧ c ≠ newline := by
  intro c hc
  simp only [text, List.mem_append, List.mem_cons] at hc
  rcases hc with (hsign | hdigit) | rfl | hhex
  · split_ifs at hsign
    · rw [List.mem_singleton.mp hsign]
      decide
    · cases hsign
  · obtain ⟨-, -, -, hzero, hline, -⟩ := not_space_of_isdigit (r.digits_ok c hdigit)
    exact ⟨hzero, hline⟩
  · decide
  · exact (not_space_of_isxdigit (r.hex_ok c hhex)).2

theorem text_head : r.text.head? ≠ some 35 := by
  rcases hdigits : r.digits with _ | ⟨d, digits⟩
  · exact absurd hdigits r.digits_ne_nil
  · have hd : isdigit d = true := r.digits_ok d (hdigits ▸ List.mem_cons_self)
    obtain ⟨-, -, -, -, -, hhash⟩ := not_space_of_isdigit hd
    rw [text, hdigits]
    split_ifs
    · simp [minusSign]
    · simpa using hhash

theorem text_ne_nil : r.text ≠ [] := by simp [text]

theorem toInt32_id : toInt32 (clampLong r.id) = r.id := by
  have hfits := r.fits
  rw [id, clampLong, toInt32]
  split_ifs at hfits ⊢ with hneg <;> (rw [Int.bmod_eq_of_le_mul_two] <;> omega)

theorem cString_line {tail : List UInt8} (htail : tail = [] ∨ tail = [newline]) :
    cString (r.text ++ tail) = r.text ++ tail := by
  have hplain : 0 ∉ r.text ++ tail := by
    intro hmem
    rcases List.mem_append.mp hmem with htext | hmem
    · exact (r.text_plain 0 htext).1 rfl
    · rcases htail with rfl | rfl
      · cases hmem
      · exact absurd (List.mem_singleton.mp hmem) (by decide)
  have hstring : cString (r.text ++ tail ++ []) = r.text ++ tail := cString_front hplain (by simp)
  rwa [List.append_nil] at hstring

theorem scanEntry_line {tail : List UInt8} (htail : tail = [] ∨ tail = [newline]) :
    scanEntry (r.text ++ tail) = (some r.id, some r.hex) := by
  have hspace : ∀ c ∈ tail.head?, isspace c = true := by
    rcases htail with rfl | rfl
    · simp
    · simp [isspace, newline]
  have hword : ∀ c ∈ r.hex, isspace c = false := fun c hc => (not_space_of_isxdigit (r.hex_ok c hc)).1
  have hdigit : ∀ c ∈ (space :: (r.hex ++ tail)).head?, isdigit c = false := by simp [isdigit, space]
  have hint := scanInt_number r.negative r.digits_ne_nil r.digits_ok hdigit
  have hscan : scanWord (r.hex.length + tail.length + 1) (space :: (r.hex ++ tail)) =
      some (r.hex, tail) :=
    scanWord_word r.hex_ne_nil hword hspace (by omega)
  have htext : r.text ++ tail =
      (if r.negative then [minusSign] else []) ++ r.digits ++ space :: (r.hex ++ tail) := by
    simp [text]
  rw [scanEntry, r.cString_line htail, htext, hint]
  simp only [List.length_cons, List.length_append, hscan, Option.map_some]
  exact congrArg (fun x => (some x, some r.hex)) r.toInt32_id

end Record

/-! ## The filling pass -/

/-- A line of a file that has a record. -/
def IsRecordLine (line : List UInt8) (r : Record) : Prop :=
  ∃ tail, (tail = [] ∨ tail = [newline]) ∧ line = r.text ++ tail

theorem parsedChunk_record (r : Record) (hash : Memory) (outf : Option String) :
    parsedChunk r.id (copyBytes hash 0 (fun k => r.hex.getD k 0) (r.hex.length + 1)) outf =
      r.chunk outf := by
  have hcopied : ∀ k < 40, copyBytes hash 0 (fun k => r.hex.getD k 0) (r.hex.length + 1) k =
      r.hex.getD k 0 := by
    intro k hk
    rw [copyBytes, if_pos (by have hlength := r.hex_length; omega), Nat.sub_zero]
  have hhash := hex2binary_record r hcopied
  rw [parsedChunk, Record.chunk]
  congr 1
  exact Subtype.ext hhash

theorem fillChunks_records {lines : List (List UInt8)} {records : List Record}
    (hlines : List.Forall₂ IsRecordLine lines records) {count i : Nat} (hfits : i + lines.length ≤ count)
    (hash : Memory) :
    fillChunks stale outf count lines i hash = .ok (records.map fun r => r.chunk outf) := by
  induction hlines generalizing i hash with
  | nil => rfl
  | @cons line r lines records hline _ ih =>
    obtain ⟨tail, htail, rfl⟩ := hline
    rw [List.length_cons] at hfits
    have hword : ¬ r.hex.length > sha1HashSize * 2 := by simp [r.hex_length, sha1HashSize]
    rw [fillChunks, if_pos (by omega), r.scanEntry_line htail]
    simp only [Option.getD_some, if_pos (not_lt.mp hword), if_neg r.hex_ne_nil, parsedChunk_record,
      ih (i := i + 1) (by omega), List.map_cons]

theorem fillChunks_cons {count i : Nat} {hash : Memory} {line : List UInt8} {lines : List (List UInt8)}
    {chunks : List Chunk} (h : fillChunks stale outf count (line :: lines) i hash = .ok chunks) :
    ∃ id hash' rest, i < count ∧ fillChunks stale outf count lines (i + 1) hash' = .ok rest ∧
      chunks = parsedChunk id hash' outf :: rest := by
  rw [fillChunks] at h
  split_ifs at h with hi
  dsimp only at h
  -- the word fits
  split at h
  · split at h
    · cases h
    · rename_i rest hrest
      exact ⟨_, _, rest, hi, hrest, (Except.ok.inj h).symm⟩
  · cases h

theorem fillChunks_length {count : Nat} : ∀ {lines : List (List UInt8)} {i : Nat} {hash : Memory}
    {chunks : List Chunk}, fillChunks stale outf count lines i hash = .ok chunks →
    chunks.length = lines.length := by
  intro lines
  induction lines with
  | nil =>
    intro i hash chunks h
    obtain rfl := Except.ok.inj h
    rfl
  | cons line lines ih =>
    intro i hash chunks h
    obtain ⟨id, hash', rest, -, hrest, rfl⟩ := fillChunks_cons h
    rw [List.length_cons, List.length_cons, ih hrest]

/-! ## The counting pass -/

theorem countChunks_records {lines : List (List UInt8)} {records : List Record}
    (hlines : List.Forall₂ IsRecordLine lines records) : countChunks lines = lines.length := by
  induction hlines with
  | nil => rfl
  | @cons line r lines records hline _ ih =>
    obtain ⟨tail, -, rfl⟩ := hline
    have hhead : (r.text ++ tail).head? ≠ some 35 := by
      rw [List.head?_append_of_ne_nil _ r.text_ne_nil]
      exact r.text_head
    rw [countChunks, if_neg hhead, ih, List.length_cons]

/-! ## Both passes -/

theorem withNewlines_records (terminated : Bool) (records : List Record) :
    List.Forall₂ IsRecordLine (withNewlines terminated (records.map Record.text)) records := by
  induction records with
  | nil => exact List.Forall₂.nil
  | cons r records ih =>
    cases records with
    | nil =>
      refine List.Forall₂.cons ?_ List.Forall₂.nil
      cases terminated with
      | true => exact ⟨[newline], Or.inr rfl, rfl⟩
      | false => exact ⟨[], Or.inl rfl, (List.append_nil _).symm⟩
    | cons r' records => exact List.Forall₂.cons ⟨[newline], Or.inr rfl, rfl⟩ ih

/-- What a parser should return for the lines it reads: one entry for each record, in the order of the file.
Both passes have the same number of entries. -/
def ParsesExactly (result : Except Fault (Option Request)) (outf : Option String)
    (pieces : List (List UInt8)) (records : List Record) : Prop :=
  result = .ok (some ⟨outf, records.map fun r => r.chunk outf⟩) ∧ countChunks pieces = pieces.length

theorem parsesExactly_records (stale : Stale) (outf : Option String) (terminated : Bool)
    (records : List Record) :
    ParsesExactly (parseLines stale outf (withNewlines terminated (records.map Record.text))) outf
      (withNewlines terminated (records.map Record.text)) records := by
  have hlines := withNewlines_records terminated records
  have hcount := countChunks_records hlines
  have hfill : fillChunks stale outf (withNewlines terminated (records.map Record.text)).length
      (withNewlines terminated (records.map Record.text)) 0 stale.hash =
        .ok (records.map fun r => r.chunk outf) :=
    fillChunks_records hlines (Nat.le_of_eq (Nat.zero_add _)) stale.hash
  refine ⟨?_, hcount⟩
  rw [parseLines, hcount, hfill]

theorem parseLines_ok {lines : List (List UInt8)} {request : Option Request}
    (h : parseLines stale outf lines = .ok request) :
    ∃ chunks, fillChunks stale outf (countChunks lines) lines 0 stale.hash = .ok chunks ∧
      request = some ⟨outf, chunks⟩ := by
  rw [parseLines] at h
  split at h
  · cases h
  · rename_i chunks hfill
    exact ⟨chunks, hfill, (Except.ok.inj h).symm⟩

theorem ParsesExactly.length_eq {pieces : List (List UInt8)} {records : List Record}
    (h : ParsesExactly (parseLines stale outf pieces) outf pieces records) : pieces.length = records.length := by
  obtain ⟨chunks, hfill, hrequest⟩ := parseLines_ok h.1
  injection hrequest with hrequest
  injection hrequest with _ hchunks
  rw [← fillChunks_length hfill, ← hchunks, List.length_map]

/-! ## Files -/

namespace ChunkLine

theorem text_plain (line : ChunkLine) : newline ∉ line.text := by
  cases line with
  | record r => exact fun hmem => (r.text_plain _ hmem).2 rfl
  | comment text h => exact fun hmem => h ((List.mem_cons.mp hmem).resolve_left (by decide))

theorem text_ne_nil (line : ChunkLine) : line.text ≠ [] := by
  cases line with
  | record r => exact r.text_ne_nil
  | comment text h => exact List.cons_ne_nil _ _

def records (lines : List ChunkLine) : List Record := lines.filterMap record?

theorem text_records {lines : List ChunkLine} (hrecords : ∀ line ∈ lines, line.record?.isSome) :
    lines.map text = (records lines).map Record.text := by
  induction lines with
  | nil => rfl
  | cons line lines ih =>
    obtain ⟨hline, hlines⟩ := List.forall_mem_cons.mp hrecords
    cases line with
    | record r => exact congrArg (List.cons _) (ih hlines)
    | comment text h => cases hline

theorem length_records {lines : List ChunkLine} : (records lines).length ≤ lines.length :=
  List.length_filterMap_le _ _

theorem isSome_of_length {lines : List ChunkLine} (hlength : lines.length ≤ (records lines).length) :
    ∀ line ∈ lines, line.record?.isSome := by
  induction lines with
  | nil =>
    intro line hmem
    cases hmem
  | cons line lines ih =>
    cases line with
    | record r =>
      have hlength' : lines.length ≤ (records lines).length := by
        simpa [records, record?] using hlength
      exact List.forall_mem_cons.mpr ⟨rfl, ih hlength'⟩
    | comment text h =>
      have hsame : records (comment text h :: lines) = records lines := rfl
      have hle : (records lines).length ≤ lines.length := length_records
      rw [hsame, List.length_cons] at hlength
      omega

end ChunkLine

/-- A file of lines behind a header. The last line of the file may have no newline. -/
def chunkFile (terminated : Bool) (headers : List (List UInt8)) (lines : List ChunkLine) : List UInt8 :=
  (withNewlines terminated (headers ++ lines.map ChunkLine.text)).flatten

/-- Each line is read by one `fgets`. -/
def ReadAtOnce (terminated : Bool) (headers : List (List UInt8)) (lines : List ChunkLine) : Prop :=
  ∀ line ∈ withNewlines terminated (headers ++ lines.map ChunkLine.text), line.length ≤ 254

/-- What the loops of a parser read behind the header is parsed exactly if there is no comment, and each line
is read at once. -/
theorem parseLines_iff (stale : Stale) (outf : Option String) (terminated : Bool)
    (headers : List (List UInt8)) (lines : List ChunkLine) (hheaders : ∀ header ∈ headers, newline ∉ header)
    (hlast : terminated = true ∨ lines ≠ [] ∨ ∀ header ∈ headers.getLast?, header ≠ []) :
    ParsesExactly (parseLines stale outf ((fileLines (chunkFile terminated headers lines)).drop headers.length))
        outf ((fileLines (chunkFile terminated headers lines)).drop headers.length)
        (ChunkLine.records lines) ↔
      (∀ line ∈ lines, line.record?.isSome) ∧ ReadAtOnce terminated headers lines := by
  have hplain : ∀ text ∈ headers ++ lines.map ChunkLine.text, newline ∉ text := by
    intro text hmem
    rcases List.mem_append.mp hmem with hheader | hline
    · exact hheaders text hheader
    · obtain ⟨line, -, rfl⟩ := List.mem_map.mp hline
      exact line.text_plain
  have hend : terminated = true ∨
      ∀ text ∈ (headers ++ lines.map ChunkLine.text).getLast?, text ≠ [] := by
    refine hlast.imp_right fun hlast text hmem => ?_
    by_cases hlines : lines = []
    · rw [hlines, List.map_nil, List.append_nil] at hmem
      exact hlast.resolve_left (not_not_intro hlines) text hmem
    · rw [List.getLast?_append_of_ne_nil _ (by simpa using hlines)] at hmem
      obtain ⟨line, -, rfl⟩ := List.mem_map.mp (List.mem_of_getLast? hmem)
      exact line.text_ne_nil
  have hall := isLine_withNewlines hplain hend
  rw [chunkFile, fileLines_withNewlines]
  constructor
  · intro hparse
    have hpieces := hparse.length_eq
    have hle : (ChunkLine.records lines).length ≤ lines.length := ChunkLine.length_records
    have hlength := length_withNewlines terminated (headers ++ lines.map ChunkLine.text)
    have hatLeast := length_le_flatMap_fileLines hall
    rw [List.length_drop] at hpieces
    rw [List.length_append, List.length_map] at hlength
    exact ⟨ChunkLine.isSome_of_length (by omega), fits_of_flatMap_fileLines hall (by omega)⟩
  · rintro ⟨hrecords, hfits⟩
    rw [flatMap_fileLines hall hfits, drop_withNewlines, ChunkLine.text_records hrecords]
    exact parsesExactly_records stale outf terminated _

/-- `parse_has_get_chunk_file` and `parse_total_chunk_file` return exactly the records of a file if it has no
comment and each line is read at once. -/
theorem parse_records_iff (stale : Stale) (outf : Option String) {terminated : Bool}
    {header header' : List UInt8} {lines : List ChunkLine} (hheader : newline ∉ header)
    (hheader' : newline ∉ header') (hlast : terminated = true ∨ lines ≠ [] ∨ header' ≠ []) :
    (ParsesExactly (parseHasGetChunkFile stale (some (chunkFile terminated [] lines)) outf) outf
        (fileLines (chunkFile terminated [] lines)) (ChunkLine.records lines) ↔
      (∀ line ∈ lines, line.record?.isSome) ∧ ReadAtOnce terminated [] lines) ∧
    (ParsesExactly (parseTotalChunkFile stale (some (chunkFile terminated [header, header'] lines)) outf)
        outf (fileLines (skipLine (skipLine (chunkFile terminated [header, header'] lines))))
        (ChunkLine.records lines) ↔
      (∀ line ∈ lines, line.record?.isSome) ∧ ReadAtOnce terminated [header, header'] lines) := by
  constructor
  · exact parseLines_iff stale outf terminated [] lines (by simp) (by simp)
  · have hiff := parseLines_iff stale outf terminated [header, header'] lines (by simp [hheader, hheader'])
      (by simpa using hlast)
    have htail : (fileLines (chunkFile terminated [header, header'] lines)).drop 2 =
        fileLines (skipLine (skipLine (chunkFile terminated [header, header'] lines))) := by
      rw [fileLines_skipLine, fileLines_skipLine, ← List.drop_one, ← List.drop_one, List.drop_drop]
    rw [List.length_cons, List.length_singleton, htail] at hiff
    exact hiff

theorem isxdigit_zero : isxdigit 48 = true := by decide

/-- The record of a chunk whose hash is all zeros. -/
def zeroRecord : Record where
  negative := false
  digits := [48]
  hex := List.replicate 40 48
  digits_ne_nil := List.cons_ne_nil _ _
  digits_ok := List.forall_mem_singleton.mpr (by decide)
  hex_length := List.length_replicate
  hex_ok := fun _ hc => List.eq_of_mem_replicate hc ▸ isxdigit_zero
  fits := by simp [decimalValue]

/-- Behind the lines "File: a" and "Chunks:". -/
theorem parse_records_zero :
    parseTotalChunkFile ⟨fun _ => 0, fun _ => 0⟩
        (some (chunkFile false [[70, 105, 108, 101, 58, 32, 97], [67, 104, 117, 110, 107, 115, 58]]
          [.record zeroRecord, .record zeroRecord])) (some "out") =
      .ok (some ⟨some "out", [zeroRecord.chunk (some "out"), zeroRecord.chunk (some "out")]⟩) :=
  ((parse_records_iff ⟨fun _ => 0, fun _ => 0⟩ (some "out") (by decide) (by decide)
    (Or.inr (Or.inl (List.cons_ne_nil _ _)))).2.mpr ⟨by simp [ChunkLine.record?], by
      simp [ReadAtOnce, withNewlines, ChunkLine.text, Record.text, zeroRecord]⟩).1

/-- A comment: the second line is stored behind the end of a table for one chunk. -/
theorem comment_overflows :
    parseHasGetChunkFile ⟨fun _ => 0, fun _ => 0⟩
        (some (chunkFile true [] [.comment [32, 99] (by decide), .record zeroRecord])) none =
      .error .overflow ∧
    ¬ ParsesExactly (parseHasGetChunkFile ⟨fun _ => 0, fun _ => 0⟩
        (some (chunkFile true [] [.comment [32, 99] (by decide), .record zeroRecord])) none) none
      (fileLines (chunkFile true [] [.comment [32, 99] (by decide), .record zeroRecord]))
      (ChunkLine.records [.comment [32, 99] (by decide), .record zeroRecord]) := by
  have hparse : parseHasGetChunkFile ⟨fun _ => 0, fun _ => 0⟩
      (some (chunkFile true [] [.comment [32, 99] (by decide), .record zeroRecord])) none =
        .error .overflow := rfl
  refine ⟨hparse, fun hexact => ?_⟩
  have hresult := hparse.symm.trans hexact.1
  cases hresult

end Bittorrent
