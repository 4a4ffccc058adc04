import Bittorrent.Files.Records
import Bittorrent.Model.UserInput

/-!
# Rejected GET requests

`handle_user_input` creates the output file before `process_get` finds out whether there can be a request, so
a GET that is rejected has an effect, unless the byte it writes is there already or cannot be written
(`rejected_get_iff`). That a GET line is a step of the peer is `handleUserInput_line`.

A rejected line changes the file and nothing else (`handleUserInput_rejected`), so the question is what
`create_file` does to it. It opens the file, seeks to a place and writes one zero byte; that is the same
memory exactly if there was a zero byte at this place (`putByte_eq_iff`), or no write (`createFile_eq_iff`).
-/

namespace Bittorrent

variable {env : Env} {stale : Stale} {disk : Disk} {name chunkf outf : String} {bytes line : List UInt8}
  {h h' : Host} {log : PeerLog}

/-! ## One byte -/

theorem putByte_getElem? (bytes : List UInt8) (offset : Nat) (b : UInt8) :
    (Disk.putByte bytes offset b)[offset]? = some b := by
  rw [Disk.putByte, List.getElem?_set_self]
  rw [List.length_append, List.length_replicate]
  omega

theorem putByte_eq_iff {offset : Nat} {b : UInt8} :
    Disk.putByte bytes offset b = bytes ↔ bytes[offset]? = some b := by
  constructor
  · intro heq
    rw [← heq]
    exact putByte_getElem? bytes offset b
  · intro hget
    obtain ⟨hlt, rfl⟩ := List.getElem?_eq_some_iff.mp hget
    rw [Disk.putByte, Nat.sub_eq_zero_of_le hlt, List.replicate_zero, List.append_nil,
      List.set_getElem_self]

theorem putByte_getD (bytes : List UInt8) (offset k : Nat) (b : UInt8) :
    (Disk.putByte bytes offset b).getD k 0 = if k = offset then b else bytes.getD k 0 := by
  rw [List.getD_eq_getElem?_getD]
  split_ifs with hk
  · rw [hk, putByte_getElem?, Option.getD_some]
  · rw [Disk.putByte, List.getElem?_set_ne (Ne.symm hk), List.getD_eq_getElem?_getD]
    rcases Nat.lt_or_ge k bytes.length with hlt | hge
    · rw [List.getElem?_append_left hlt]
    · rw [List.getElem?_append_right hge, List.getElem?_eq_none hge, List.getElem?_replicate]
      split_ifs <;> rfl

/-! ## `create_file` -/

/-- What `create_file` leaves of a file that it can open. -/
def created (disk : Disk) (name : String) (size : Nat) : List UInt8 :=
  if disk.writes name then Disk.putByte ((disk.content name).getD []) (size - 1) 0
  else (disk.content name).getD []

theorem createFile_opened {size : Nat} (hopens : disk.opens name = true) :
    disk.createFile name size =
      { disk with content := Function.update disk.content name (some (created disk name size)) } := by
  rw [created]
  cases hwrites : disk.writes name <;> simp [Disk.createFile, Disk.openFile, hopens, hwrites]

theorem createFile_failed {size : Nat} (hopens : disk.opens name = false) :
    disk.createFile name size = disk := by
  simp [Disk.createFile, Disk.openFile, hopens]

theorem createFile_content {size : Nat} (hopens : disk.opens name = true) (hwrites : disk.writes name = true)
    (hcontent : disk.content name = some bytes) :
    (disk.createFile name size).content name = some (Disk.putByte bytes (size - 1) 0) := by
  rw [createFile_opened hopens, created, if_pos hwrites, hcontent]
  exact Function.update_self _ _ _

theorem memory_createFile (hopens : disk.opens name = true) (hwrites : disk.writes name = true) :
    (disk.createFile name btChunkSize).memory =
      Function.update disk.memory name (createFile (disk.memory name)) := by
  rw [createFile_opened hopens, created, if_pos hwrites]
  funext name' k
  rw [Disk.memory]
  dsimp only
  by_cases hname : name' = name
  · subst hname
    rw [Function.update_self, Function.update_self, Option.getD_some, putByte_getD, createFile, writeFile,
      copyBytes]
    have hoffset : ((btChunkSize : Int) - 1).toNat = btChunkSize - 1 := rfl
    rw [hoffset]
    by_cases hk : k = btChunkSize - 1
    · rw [if_pos hk, if_pos (by omega)]
    · rw [if_neg hk, if_neg (by omega), Disk.memory]
  · rw [Function.update_of_ne hname, Function.update_of_ne hname, Disk.memory]

/-- It changes nothing exactly if the file cannot be opened, or is there and has the byte or cannot be
written. -/
theorem createFile_eq_iff {size : Nat} :
    disk.createFile name size = disk ↔
      disk.opens name = false ∨ ∃ bytes, disk.content name = some bytes ∧
        (disk.writes name = false ∨ bytes[size - 1]? = some 0) := by
  cases hopens : disk.opens name with
  | false => simp [createFile_failed hopens]
  | true =>
    rw [createFile_opened hopens]
    constructor
    · intro heq
      have hcontent : disk.content name = some (created disk name size) := by
        conv_lhs => rw [← heq]
        exact Function.update_self name _ _
      refine Or.inr ⟨_, hcontent, ?_⟩
      cases hwrites : disk.writes name with
      | false => exact Or.inl rfl
      | true =>
        rw [created, if_pos hwrites]
        exact Or.inr (putByte_getElem? _ _ _)
    · rintro (hfalse | ⟨bytes, hcontent, hkept⟩)
      · cases hfalse
      · have hcreated : created disk name size = bytes := by
          rw [created, hcontent, Option.getD_some]
          split_ifs with hwrites
          · exact putByte_eq_iff.mpr (hkept.resolve_left (by simp [hwrites]))
          · rfl
        rw [hcreated, ← hcontent, Function.update_eq_self]

/-! ## Handling a line -/

theorem withDisk_eq_iff : h.withDisk disk = h ↔ disk = h.disk := by
  constructor
  · intro heq
    exact congrArg Host.disk heq
  · rintro rfl
    obtain ⟨disk, ⟨uploads, ⟨slots, request, connections, has, files⟩⟩, hfiles⟩ := h
    obtain rfl : files = disk.memory := hfiles
    rfl

/-- `process_get` does not accept the request: there is one already, or the chunk file is not parsed. -/
def GetRejected (stale : Stale) (chunkf outf : String) (h : Host) : Prop :=
  h.peer.downloads.currentRequest.isSome ∨
    parseHasGetChunkFile stale ((h.disk.createFile outf btChunkSize).fopen chunkf) (some outf) = .ok none

theorem handleUserInput_rejected (hget : scanGet (cString line) = some (chunkf, outf))
    (hrejected : GetRejected stale chunkf outf h) :
    handleUserInput env stale line h = .ok (h.withDisk (h.disk.createFile outf btChunkSize), []) := by
  have hrequest : (h.withDisk (h.disk.createFile outf btChunkSize)).peer.downloads.currentRequest =
      h.peer.downloads.currentRequest := rfl
  have hdisk : (h.withDisk (h.disk.createFile outf btChunkSize)).disk =
      h.disk.createFile outf btChunkSize := rfl
  rw [handleUserInput, hget]
  dsimp only
  rw [processGet, hrequest, hdisk]
  split_ifs with hcurrent
  · rfl
  · rw [hrejected.resolve_left hcurrent]

/-- A rejected GET line leaves the peer, its request and every file as they were exactly if the output file
cannot be opened, or is there and has a zero at the last byte of the first chunk or cannot be written. -/
theorem rejected_get_iff (hget : scanGet (cString line) = some (chunkf, outf))
    (hrejected : GetRejected stale chunkf outf h) :
    handleUserInput env stale line h = .ok (h, []) ↔
      h.disk.opens outf = false ∨ ∃ bytes, h.disk.content outf = some bytes ∧
        (h.disk.writes outf = false ∨ bytes[btChunkSize - 1]? = some 0) := by
  rw [handleUserInput_rejected hget hrejected, ← createFile_eq_iff, ← withDisk_eq_iff]
  exact ⟨fun heq => (Prod.mk.inj (Except.ok.inj heq)).1, fun heq => by rw [heq]⟩

/-- "GET a b" -/
def sampleLine : List UInt8 := [71, 69, 84, 32, 97, 32, 98]

/-- A peer that has just started, with one output file. -/
def sampleHost (opens : Bool) (request : Option Request) (bytes : List UInt8) : Host :=
  let disk : Disk := ⟨fun name => if name = "b" then some bytes else none, fun _ => opens, fun _ => false,
    fun _ => opens⟩
  { disk
    peer := ⟨initUploads 1 fun _ => unsetZero, { initDownloads 1 [] disk.memory with currentRequest := request }⟩
    files := rfl }

theorem scanGet_sampleLine : scanGet (cString sampleLine) = some ("a", "b") := by decide

/-- An output file that cannot be opened, for a request that has no chunk file; and one whose first chunk ends
with a zero, while a request is running. -/
theorem rejected_get_two :
    handleUserInput sampleEnv ⟨fun _ => 0, fun _ => 0⟩ sampleLine (sampleHost false none []) =
      .ok (sampleHost false none [], []) ∧
    handleUserInput sampleEnv ⟨fun _ => 0, fun _ => 0⟩ sampleLine
        (sampleHost true (some ⟨some "b", []⟩) (List.replicate btChunkSize 0)) =
      .ok (sampleHost true (some ⟨some "b", []⟩) (List.replicate btChunkSize 0), []) := by
  have hzero : (List.replicate btChunkSize (0 : UInt8))[btChunkSize - 1]? = some 0 :=
    List.getElem?_replicate_of_lt (Nat.sub_lt (by decide) (by decide))
  have hcontent : (sampleHost true (some ⟨some "b", []⟩) (List.replicate btChunkSize 0)).disk.content "b" =
      some (List.replicate btChunkSize 0) := by simp [sampleHost]
  exact ⟨(rejected_get_iff scanGet_sampleLine (Or.inr rfl)).mpr (Or.inl rfl),
    (rejected_get_iff scanGet_sampleLine (Or.inl rfl)).mpr (Or.inr ⟨_, hcontent, Or.inr hzero⟩)⟩

/-- A second GET for the output file of the running request, which is full: its last byte is lost. -/
theorem rejected_get_overwrites :
    GetRejected ⟨fun _ => 0, fun _ => 0⟩ "a" "b"
        (sampleHost true (some ⟨some "b", []⟩) (List.replicate btChunkSize 1)) ∧
      (sampleHost true (some ⟨some "b", []⟩) (List.replicate btChunkSize 1)).disk.content "b" =
        some (List.replicate btChunkSize 1) ∧
      (List.replicate btChunkSize (1 : UInt8))[btChunkSize - 1]? = some 1 ∧
      ∃ h' bytes, handleUserInput sampleEnv ⟨fun _ => 0, fun _ => 0⟩ sampleLine
          (sampleHost true (some ⟨some "b", []⟩) (List.replicate btChunkSize 1)) = .ok (h', []) ∧
        h'.disk.content "b" = some bytes ∧ bytes[btChunkSize - 1]? = some 0 := by
  have hlast : (List.replicate btChunkSize (1 : UInt8))[btChunkSize - 1]? = some 1 :=
    List.getElem?_replicate_of_lt (Nat.sub_lt (by decide) (by decide))
  generalize List.replicate btChunkSize (1 : UInt8) = bytes at hlast
  have hcontent : (sampleHost true (some ⟨some "b", []⟩) bytes).disk.content "b" = some bytes := by
    simp [sampleHost]
  have hrejected : GetRejected ⟨fun _ => 0, fun _ => 0⟩ "a" "b"
      (sampleHost true (some ⟨some "b", []⟩) bytes) := Or.inl rfl
  exact ⟨hrejected, hcontent, hlast, _, _, handleUserInput_rejected scanGet_sampleLine hrejected,
    createFile_content rfl rfl hcontent, putByte_getElem? bytes (btChunkSize - 1) 0⟩

/-! ## A line as a step of the peer -/

/-- The entries of a request, as the peer takes them. -/
def parsedLines : Except Fault (Option Request) → Option (List (Int × Hash))
  | .ok (some request) => some (request.chunks.map fun chunk => (chunk.id, chunk.hash))
  | _ => none

theorem fillChunks_requestEntry {count : Nat} : ∀ {lines : List (List UInt8)} {i : Nat} {hash : Memory}
    {chunks : List Chunk}, fillChunks stale (some outf) count lines i hash = .ok chunks →
    (chunks.map fun chunk => (chunk.id, chunk.hash)).map requestEntry = chunks := by
  intro lines
  induction lines with
  | nil =>
    intro i hash chunks h
    obtain rfl := Except.ok.inj h
    rfl
  | cons line lines ih =>
    intro i hash chunks h
    obtain ⟨id, hash', rest, -, hrest, rfl⟩ := fillChunks_cons h
    rw [List.map_cons, List.map_cons, ih hrest]
    rfl

theorem parse_requestEntry {file : Option (List UInt8)} {request : Request}
    (h : parseHasGetChunkFile stale file (some outf) = .ok (some request)) :
    request = ⟨some outf, (request.chunks.map fun chunk => (chunk.id, chunk.hash)).map requestEntry⟩ := by
  rcases file with _ | file
  · cases h
  · obtain ⟨chunks, hfill, hrequest⟩ := parseLines_ok h
    obtain rfl := Option.some_inj.mp hrequest
    rw [fillChunks_requestEntry hfill]

theorem processGet_line {parsed : Except Fault (Option Request)}
    (hfiles : Function.update h.peer.downloads.files outf (createFile (h.peer.downloads.files outf)) =
      disk.memory)
    (hparsed : parseHasGetChunkFile stale (disk.fopen chunkf) (some outf) = parsed)
    (hget : processGet env stale chunkf outf (h.withDisk disk) = .ok (h', log)) :
    (peerMachine env).step (.line outf (parsedLines parsed)) h.peer = .ok (h'.peer, log) := by
  have hdisk : (h.withDisk disk).disk = disk := rfl
  rw [processGet, hdisk, hparsed] at hget
  have hstep : (peerMachine env).step (.line outf (parsedLines parsed)) h.peer =
      h.peer.download (userGet env outf (parsedLines parsed) h.peer.downloads) := rfl
  rw [hstep]
  unfold userGet
  rw [hfiles]
  obtain ⟨old, ⟨uploads, ⟨slots, current, connections, has, files⟩⟩, hold⟩ := h
  rcases current with _ | current
  · rw [if_neg (by simp [Host.withDisk])] at hget
    rcases parsed with f | _ | request
    · cases hget
    · obtain ⟨rfl, rfl⟩ := Prod.mk.inj (Except.ok.inj hget)
      rfl
    · have hentries := parse_requestEntry hparsed
      dsimp only at hget
      dsimp only [parsedLines]
      rw [← hentries]
      rcases hsent : whohasFlooding env request with f | sent
      · rw [hsent] at hget
        cases hget
      · rw [hsent] at hget
        obtain ⟨rfl, rfl⟩ := Prod.mk.inj (Except.ok.inj hget)
        rfl
  · rw [if_pos (by simp [Host.withDisk])] at hget
    obtain ⟨rfl, rfl⟩ := Prod.mk.inj (Except.ok.inj hget)
    rfl

theorem handleUserInput_line (hget : scanGet (cString line) = some (chunkf, outf))
    (hopens : h.disk.opens outf = true) (hwrites : h.disk.writes outf = true)
    (hline : handleUserInput env stale line h = .ok (h', log)) :
    ∃ parsed, (peerMachine env).step (.line outf parsed) h.peer = .ok (h'.peer, log) := by
  have hfiles : Function.update h.peer.downloads.files outf (createFile (h.peer.downloads.files outf)) =
      (h.disk.createFile outf btChunkSize).memory := by
    rw [memory_createFile hopens hwrites, h.files]
  rw [handleUserInput, hget] at hline
  exact ⟨_, processGet_line hfiles rfl hline⟩

end Bittorrent
