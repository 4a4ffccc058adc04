import Bittorrent.Files.RoundTrip
import Bittorrent.Hash.Digest
import Bittorrent.Lib.Cut
import Bittorrent.Model.MakeChunks

/-!
# Chunk files of a file

`make_chunks` cuts a file into chunks of which only the last may be short, and never writes past the array
that `get_numchunks` sized. What it prints is parsed back to the SHA-1 digests of the chunks, numbered from 0.

The loop of `make_chunks` reads a chunk at a time until a read comes back empty, an induction on the length
of what is left (`makeChunksFrom_ok`); the number that `get_numchunks` has found is enough for it, as both
round up. The bytes are those of `Cut`, the digests those of `sha1_digest`, and the printed table is read
back by `parse_printed`.
-/

namespace Bittorrent

variable {stack : Memory} {file : List UInt8} {parts : List (List UInt8)} {count numchunks : Nat}

/-! ## Chunks -/

theorem take_btChunkSize_ne_nil (hne : file ≠ []) : file.take btChunkSize ≠ [] := by
  have hpos := List.length_pos_iff.mpr hne
  refine List.length_pos_iff.mp ?_
  rw [List.length_take, btChunkSize]
  omega

theorem cut_file (hne : file ≠ []) (hrest : Cut btChunkSize (file.drop btChunkSize) parts) :
    Cut btChunkSize file (file.take btChunkSize :: parts) := by
  have hpos := List.length_pos_iff.mpr hne
  rcases Nat.lt_or_ge btChunkSize file.length with hlt | hle
  · exact .cons (by simp only [btChunkSize]; omega) hlt hrest
  · rw [List.drop_eq_nil_of_le hle] at hrest
    have hnil : parts = [] := by
      refine List.eq_nil_iff_forall_not_mem.mpr fun part hpart => ?_
      have hempty := List.flatten_eq_nil_iff.mp hrest.flatten part hpart
      have hbound := (hrest.bounds part hpart).1
      rw [hempty, List.length_nil] at hbound
      omega
    rw [hnil, List.take_of_length_le hle]
    exact .last hpos hle

theorem getNumchunks_drop (hne : file ≠ []) :
    getNumchunks file.length = getNumchunks (file.drop btChunkSize).length + 1 := by
  have hpos := List.length_pos_iff.mpr hne
  simp only [getNumchunks, List.length_drop, btChunkSize]
  omega

theorem makeChunksFrom_ok (hcount : numchunks + getNumchunks file.length ≤ count) :
    ∃ parts, Cut btChunkSize file parts ∧
      makeChunksFrom stack count numchunks file = .ok (parts.map (shahash stack)) := by
  induction hlength : file.length using Nat.strongRecOn generalizing numchunks file with
  | ind n ih =>
    rw [makeChunksFrom]
    by_cases hne : file = []
    · refine ⟨[], hne ▸ .nil, ?_⟩
      rw [hne]
      exact if_pos List.take_nil
    · have hlast := getNumchunks_drop hne
      have hshorter : (file.drop btChunkSize).length < n := by
        have hpos := List.length_pos_iff.mpr hne
        rw [List.length_drop, btChunkSize]
        omega
      have hroom : numchunks + 1 + getNumchunks (file.drop btChunkSize).length ≤ count := by omega
      obtain ⟨parts, hcut, hrest⟩ := ih _ hshorter hroom rfl
      refine ⟨_, cut_file hne hcut, ?_⟩
      rw [if_neg (take_btChunkSize_ne_nil hne), if_pos (by omega), hrest]
      rfl

theorem makeChunks_ok (stack : Memory) (file : List UInt8) :
    ∃ parts, Cut btChunkSize file parts ∧ parts.length = getNumchunks file.length ∧
      makeChunks stack (getNumchunks file.length) file = .ok (parts.map (shahash stack)) := by
  have hroom : 0 + getNumchunks file.length ≤ getNumchunks file.length := by rw [Nat.zero_add]
  obtain ⟨parts, hcut, hparts⟩ := @makeChunksFrom_ok stack _ _ _ hroom
  exact ⟨parts, hcut, hcut.length (by simp only [btChunkSize]; omega), hparts⟩

/-! ## The printed table -/

theorem makeChunksMain_ok {text : List UInt8} (hmade : makeChunksMain stack (some file) = .ok text) :
    ∃ parts, Cut btChunkSize file parts ∧ parts.length = getNumchunks file.length ∧
      text = printChunks (parts.map (shahash stack)) := by
  obtain ⟨parts, hcut, hcount, hparts⟩ := makeChunks_ok stack file
  simp only [makeChunksMain, hparts] at hmade
  split at hmade
  · cases hmade
  · exact ⟨parts, hcut, hcount, (Except.ok.inj hmade).symm⟩

theorem makeChunksMain_returns (stack : Memory) (hfile : file.length + btChunkSize ≤ 2 ^ 50) :
    ∃ text, makeChunksMain stack (some file) = .ok text := by
  obtain ⟨parts, -, -, hparts⟩ := makeChunks_ok stack file
  have hint : ¬2 ^ 31 ≤ getNumchunks file.length := by
    simp only [getNumchunks, btChunkSize] at hfile ⊢
    omega
  refine ⟨printChunks (parts.map (shahash stack)), ?_⟩
  simp only [makeChunksMain, hparts, if_neg hint]

/-- `make_chunks` prints, for every file whose number of chunks is an `int`, one line for each of its chunks,
and stays inside its array; both parsers read the numbers of the chunks and the SHA-1 digests of their bytes,
in the order of the file. -/
theorem make_chunks_parsed (stack : Memory) (stale : Stale) (file : List UInt8) (outf : Option String)
    (hfile : file.length + btChunkSize ≤ 2 ^ 50) :
    ∃ parts text, Cut btChunkSize file parts ∧ parts.length = getNumchunks file.length ∧
      makeChunksMain stack (some file) = .ok text ∧
      ∃ request, parseHasGetChunkFile stale (some text) outf = .ok (some request) ∧
        (∀ header header' : List UInt8, newline ∉ header → newline ∉ header' → header.length ≤ 253 →
          header'.length ≤ 253 →
          parseTotalChunkFile stale (some (header ++ newline :: (header' ++ newline :: text))) outf =
            .ok (some request)) ∧
        request.filename = outf ∧
        request.chunks.map (fun c => (c.id, c.hash.val)) =
          parts.mapIdx fun i part => (toInt32 i, Sha1.digest part) := by
  obtain ⟨text, hmade⟩ := makeChunksMain_returns stack hfile
  obtain ⟨parts, hcut, hcount, rfl⟩ := makeChunksMain_ok hmade
  have hparse := parseLines_printChunks (parts.map (shahash stack)) stale outf
  refine ⟨parts, printChunks (parts.map (shahash stack)), hcut, hcount, hmade,
    roundTripTable (parts.map (shahash stack)) outf, hparse, ?_, rfl, ?_⟩
  · intro header header' hheader hheader' hlength hlength'
    rw [parseTotalChunkFile, skipLine_header hheader hlength, skipLine_header hheader' hlength', hparse]
  · refine List.ext_getElem ?_ fun k _ _ => ?_
    · rw [roundTripTable, List.length_map, List.length_mapIdx, List.length_map, List.length_mapIdx]
    · simp only [roundTripTable, List.getElem_map, List.getElem_mapIdx, roundTripChunk,
        ← shahash_eq stack]

/-- A file of two chunks, the second of one byte. -/
theorem make_chunks_parsed_two : ∃ text request,
    makeChunksMain (fun _ => 0) (some (List.replicate (btChunkSize + 1) 7)) = .ok text ∧
    parseHasGetChunkFile ⟨fun _ => 0, fun _ => 0⟩ (some text) none = .ok (some request) ∧
    request.chunks.length = 2 := by
  have hfile : (List.replicate (btChunkSize + 1) (7 : UInt8)).length + btChunkSize ≤ 2 ^ 50 := by
    rw [List.length_replicate]
    decide
  obtain ⟨parts, text, -, hcount, hmade, request, hparse, -, -, hchunks⟩ :=
    make_chunks_parsed (fun _ => 0) ⟨fun _ => 0, fun _ => 0⟩ (List.replicate (btChunkSize + 1) 7) none hfile
  refine ⟨text, request, hmade, hparse, ?_⟩
  have hlength := congrArg List.length hchunks
  rw [List.length_map, List.length_mapIdx, hcount, List.length_replicate] at hlength
  exact hlength.trans (by decide)

end Bittorrent
