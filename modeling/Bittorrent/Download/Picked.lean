import Bittorrent.Download.Buffer

/-!
# Payloads go to the entry that was picked

The entry is picked by its position, remembered in the slot by its hash, looked up as an id and used
as a position again. The log says which entry was last handed to a slot (`handedTo`); as long as
every id that is a position is the position of its own line (`IdsArePositions`), a payload accepted
for a slot goes to the entry handed to it, and the same entry completes (`PickedAs`).

Two invariants, one on top of the other. `HandedInv` connects the slots with the log: a slot with a hash is
the one last handed that entry, with that peer. It is a matter of the moves alone and holds in every run.
`PickInv` adds that the request's ids that are positions are the positions of their lines, which is so when
it is so of every GET file; then the id found for a slot's hash, used as a position, is the entry the slot
was handed (`Target.handed`), and the payload that the log says was accepted went there (`picked_move`). As
the log only grows, what was right when it was logged stays right (`Always`).
-/

namespace Bittorrent

variable {env : Env} {valid linked : Prop} {d d' : Downloads} {log l : DownloadLog} {p : Int}
  {index entry : Nat} {slot slot' : DownloadSlot} {hash : Hash} {request : Request}
  {chunk chunk' : Chunk} {lines : List (Int × Hash)}

/-! ## What was handed to a slot -/

def handedAdd (index : Nat) (handed : Option (Int × Nat)) : DownloadAction → Option (Int × Nat)
  | .handed i p entry => if i = index then some (p, entry) else handed
  | _ => handed

/-- The peer and the entry last handed to a slot. -/
def handedTo (index : Nat) (log : DownloadLog) : Option (Int × Nat) :=
  log.foldl (handedAdd index) none

theorem handedTo_append (index : Nat) (log l : DownloadLog) :
    handedTo index (log ++ l) = l.foldl (handedAdd index) (handedTo index log) :=
  List.foldl_append

/-- A payload is accepted for the entry last handed to its slot, an entry completes with the payload
just accepted for it, and an entry is handed out right after it was picked. -/
def PickedAs (log : DownloadLog) : DownloadAction → Prop
  | .accepted index p _ entry _ => handedTo index log = some (p, entry)
  | .completed entry =>
    ∃ before index p seq size, log = before ++ [.accepted index p seq entry size]
  | .handed _ _ entry => ∃ before, log = before ++ [.picked entry]
  | _ => True

/-! ## Ids and positions -/

/-- The id found for a line's hash, where it is a position, is that of the line. -/
def IdsArePositions (lines : List (Int × Hash)) : Prop :=
  ∀ (j : Nat) (line : Int × Hash), lines[j]? = some line →
    ∀ n : Nat, lineId line.2 lines = n → n < lines.length → n = j

/-- A slot has the peer it was last handed to, and the hash of the entry. -/
def SlotsHanded (d : Downloads) (log : DownloadLog) : Prop :=
  ∀ (i : Nat) (slot : DownloadSlot), d.slots[i]? = some slot → slot.downloadChunk ≠ none →
    ∃ lines entry line, d.lines = some lines ∧ handedTo i log = some (slot.downloadId, entry) ∧
      lines[entry]? = some line ∧ slot.downloadChunk = some line.2

theorem SlotsHanded.quiet (h : SlotsHanded d log) (hslots : d'.slots = d.slots)
    (hlines : d'.lines = d.lines) (hl : ∀ i, handedTo i (log ++ l) = handedTo i log) :
    SlotsHanded d' (log ++ l) := by
  intro i slot hi hnamed
  obtain ⟨lines, entry, line, hd, hhanded, hget, hhash⟩ := h i slot (hslots ▸ hi) hnamed
  exact ⟨lines, entry, line, hlines.trans hd, (hl i).trans hhanded, hget, hhash⟩

theorem SlotsHanded.write (h : SlotsHanded d log) (hi : d.slots[index]? = some slot)
    (hslot : slot'.downloadChunk ≠ none →
      slot'.downloadId = slot.downloadId ∧ slot'.downloadChunk = slot.downloadChunk) :
    SlotsHanded (d.write index slot') log := by
  intro i s hs hnamed
  rcases Table.get_set_cases (List.getElem?_eq_some_iff.mp hi).1 hs with ⟨rfl, rfl⟩ | ⟨-, hs⟩
  · obtain ⟨hid, hhash⟩ := hslot hnamed
    obtain ⟨lines, entry, line, hd, hhanded, hget, hline⟩ := h i slot hi (hhash ▸ hnamed)
    exact ⟨lines, entry, line, hd, by rw [hid]; exact hhanded, hget, hhash.trans hline⟩
  · exact h i s hs hnamed

theorem SlotsHanded.abort (h : SlotsHanded d log) (hi : d.slots[index]? = some slot) :
    SlotsHanded (d.write index slot.abort) log :=
  h.write hi fun hne => absurd rfl hne

theorem SlotsHanded.open (h : SlotsHanded d log) (hi : d.slots[index]? = some slot)
    (hentry : Unfinished d request entry chunk) (now : Time) :
    SlotsHanded ((d.writeChunk entry { chunk with state := .receiving }).write index { slot with
      downloadId := p, downloadChunk := some chunk.hash, downloadLastTime := now })
      (log ++ [.picked entry, .handed index p entry]) := by
  have hlines : (d.writeChunk entry { chunk with state := .receiving }).lines = d.lines :=
    lines_writeChunk hentry.current hentry.get rfl
  intro i s hs hnamed
  rw [handedTo_append]
  simp only [List.foldl_cons, List.foldl_nil, handedAdd]
  rcases Table.get_set_cases (List.getElem?_eq_some_iff.mp hi).1 hs with ⟨rfl, rfl⟩ | ⟨hne, hs⟩
  · refine ⟨request.chunks.map Chunk.line, entry, chunk.line, hlines.trans ?_, if_pos rfl, ?_, rfl⟩
    · rw [Downloads.lines, hentry.current]
      rfl
    · rw [List.getElem?_map, hentry.get]
      rfl
  · rw [if_neg (Ne.symm hne)]
    obtain ⟨lines, e, line, hd, hhanded, hget, hline⟩ := h i s hs hnamed
    exact ⟨lines, e, line, hlines.trans hd, hhanded, hget, hline⟩

/-! ## Moves -/

theorem slotsHanded_move (h : SlotsHanded d log) (hinv : DownloadInv d' (log ++ l))
    (hm : Move env valid linked d l d') : SlotsHanded d' (log ++ l) := by
  have hnil : SlotsHanded d (log ++ []) := by rwa [List.append_nil]
  cases hm with
  | sent dst m => exact h.quiet rfl rfl fun i => by simp [handedTo_append, handedAdd]
  | connected connections _ => exact h.quiet (l := []) rfl rfl fun i => by simp
  | tracked records now hslot _ => exact hnil.write hslot fun _ => ⟨rfl, rfl⟩
  | marked hlink hentry =>
    exact h.quiet rfl (lines_writeChunk hentry.current hentry.get rfl)
      fun i => by simp [handedTo_append, handedAdd]
  | opened now hentry hslot hpeer => exact h.open (getDownloadIndexById_get hslot) hentry now
  | accepted packet htarget hsave =>
    exact h.quiet rfl (lines_writeChunk htarget.current htarget.get (saveDataPacket_line hsave))
      fun i => by simp [handedTo_append, handedAdd]
  | failed packet htarget hfull _ _ _ =>
    refine SlotsHanded.abort ?_ (getDownloadIndexById_get htarget.found)
    exact h.quiet rfl (lines_writeChunk htarget.current htarget.get (hfull.line _))
      fun i => by simp [handedTo_append, handedAdd]
  | @verified p index entry slot hash request chunk chunk' data packet htarget hfull _ _ _ =>
    refine SlotsHanded.abort ?_ (getDownloadIndexById_get htarget.found)
    exact h.quiet rfl (lines_writeChunk (d := d.store env request.filename chunk' data)
      htarget.current htarget.get (hfull.line _)) fun i => by simp [handedTo_append, handedAdd]
  | denied hlink hslot => exact hnil.abort (getDownloadIndexById_get hslot)
  | crashed _ _ _ hslot _ _ =>
    have habort := hnil.abort (getDownloadIndexById_get hslot)
    rw [List.append_nil] at habort
    exact habort.quiet resetChunk_slots (lines_resetChunk _ _) fun i => by simp
  | finished hall =>
    -- no stream outlives its request
    intro i slot hi hnamed
    obtain ⟨request, hrequest⟩ := hinv.hasRequest hi hnamed
    cases hrequest

theorem Target.handed (h : Target d p index slot hash request entry chunk)
    (hslots : SlotsHanded d log) (hids : ∀ lines, d.lines = some lines → IdsArePositions lines) :
    handedTo index log = some (p, entry) := by
  have hid := getDownloadIndexById_id h.found
  obtain ⟨lines, e, line, hlines, hhanded, hget, hline⟩ :=
    hslots index slot (getDownloadIndexById_get h.found) (h.named ▸ Option.some_ne_none hash)
  have hsame : lines = request.chunks.map Chunk.line := by
    rw [Downloads.lines, h.current] at hlines
    exact (Option.some.inj hlines).symm
  have hhash : line.2 = hash := Option.some.inj (hline.symm.trans h.named)
  have hentry : entry = e := by
    refine hids lines hlines e line hget entry ?_ ?_
    · rw [hhash, hsame, ← getChunkId_eq]
      exact h.id
    · rw [hsame, List.length_map]
      exact (List.getElem?_eq_some_iff.mp h.get).1
  rw [hhanded, hid, hentry]

theorem picked_move (h : Always PickedAs log) (hslots : SlotsHanded d log)
    (hids : ∀ lines, d.lines = some lines → IdsArePositions lines)
    (hm : Move env valid linked d l d') : Always PickedAs (log ++ l) := by
  have hnil : Always PickedAs (log ++ []) := by rwa [List.append_nil]
  cases hm with
  | sent dst m => exact always_concat.mpr ⟨h, trivial⟩
  | connected connections _ => exact hnil
  | tracked records now hslot _ => exact hnil
  | marked hlink hentry => exact always_concat.mpr ⟨h, trivial⟩
  | opened now hentry hslot hpeer =>
    rw [List.append_cons]
    exact always_concat.mpr ⟨always_concat.mpr ⟨h, trivial⟩, log, rfl⟩
  | accepted packet htarget hsave =>
    exact always_concat.mpr ⟨h, htarget.handed hslots hids⟩
  | failed packet htarget hfull _ _ _ =>
    have hhanded := htarget.handed hslots hids
    rw [List.append_cons]
    exact always_concat.mpr ⟨always_concat.mpr ⟨h, hhanded⟩, log, _, _, _, _, rfl⟩
  | verified packet htarget hfull _ _ _ =>
    have hhanded := htarget.handed hslots hids
    rw [List.append_cons, List.append_cons]
    exact always_concat.mpr
      ⟨always_concat.mpr ⟨always_concat.mpr ⟨h, hhanded⟩, log, _, _, _, _, rfl⟩, trivial⟩
  | denied hlink hslot => exact hnil
  | crashed _ _ _ hslot _ _ => exact hnil
  | finished hall => exact hnil

/-! ## Runs -/

structure HandedInv (d : Downloads) (log : DownloadLog) : Prop where
  inv : DownloadInv d log
  handed : SlotsHanded d log

theorem handedInv_move (h : HandedInv d log) (hm : Move env valid linked d l d') : HandedInv d' (log ++ l) := by
  have hinv := downloadInv_move h.inv hm
  exact ⟨hinv, slotsHanded_move h.handed hinv hm⟩

theorem handedInv_userGet {outf : String} {parsed : Option (List (Int × Hash))} (h : HandedInv d log)
    (hs : userGet env outf parsed d = .ok (d', l)) : HandedInv d' (log ++ l) := by
  have hinv := downloadInv_userGet h.inv hs
  rcases userGet_cases hs with ⟨rfl, rfl⟩ | ⟨lines, sent, hnone, -, -, rfl, rfl⟩
  · rw [List.append_nil] at hinv ⊢
    exact ⟨hinv, h.handed⟩
  · refine ⟨hinv, fun i slot hi hnamed => ?_⟩
    obtain ⟨request, hrequest⟩ := h.inv.hasRequest hi hnamed
    rw [hnone] at hrequest
    cases hrequest

theorem handedInv_init (max : Nat) (has : List Chunk) (files : String → Memory) :
    HandedInv (initDownloads max has files) [] := by
  have hinit := downloadInv_init max has files
  refine ⟨hinit, fun i slot hi hnamed => ?_⟩
  obtain ⟨request, hrequest⟩ := hinit.hasRequest hi hnamed
  cases hrequest

theorem handedInv_reach {max : Nat} {has : List Chunk} {files : String → Memory}
    {Ok : Downloads → DownloadLog → DownloadEvent → Prop}
    (h : (downloadMachine env).Reach (· = initDownloads max has files) Ok d log) : HandedInv d log := by
  refine run_invariant False False (fun d hd => ?_) (fun _ _ _ _ hv => hv.elim) (fun _ _ _ _ _ hl => hl.elim)
    (fun d log l d' hI hm => handedInv_move hI hm)
    (fun d log outf parsed l d' hI _ hs => handedInv_userGet hI hs) h
  exact hd ▸ handedInv_init max has files

theorem HandedInv.requested (h : HandedInv d log) (hi : d.slots[index]? = some slot)
    (hnamed : slot.downloadChunk = some hash) : ∃ (request : Request) (entry : Nat) (chunk : Chunk),
      d.currentRequest = some request ∧ request.chunks[entry]? = some chunk ∧ chunk.hash = hash := by
  obtain ⟨lines, entry, line, hlines, -, hget, hline⟩ :=
    h.handed index slot hi (hnamed ▸ Option.some_ne_none hash)
  obtain ⟨request, hrequest, rfl⟩ := Option.map_eq_some_iff.mp hlines
  rw [List.getElem?_map] at hget
  obtain ⟨chunk, hchunk, rfl⟩ := Option.map_eq_some_iff.mp hget
  exact ⟨request, entry, chunk, hrequest, hchunk, Option.some.inj (hline.symm.trans hnamed)⟩

structure PickInv (d : Downloads) (log : DownloadLog) : Prop extends HandedInv d log where
  ids : ∀ lines, d.lines = some lines → IdsArePositions lines
  picked : Always PickedAs log

theorem pickInv_move (h : PickInv d log) (hm : Move env valid linked d l d') :
    PickInv d' (log ++ l) := by
  refine ⟨handedInv_move h.toHandedInv hm, fun lines hlines => ?_, picked_move h.picked h.handed h.ids hm⟩
  rcases hm.lines with hsame | hnone
  · exact h.ids lines (hsame ▸ hlines)
  · rw [Downloads.lines, hnone] at hlines
    cases hlines

/-- In every request file the ids that are positions are the positions of their lines. -/
def PositionIds (_ : Downloads) (_ : DownloadLog) : DownloadEvent → Prop
  | .userGet _ (some lines) => IdsArePositions lines
  | _ => True

theorem whohasFlooding_sent {sent : DownloadLog} (h : whohasFlooding env request = .ok sent) :
    ∀ a ∈ sent, ∃ dst m, a = .sent dst m := by
  unfold whohasFlooding at h
  split at h
  · cases h
  · cases h
    intro a ha
    obtain ⟨peer, -, ha⟩ := List.mem_flatMap.mp ha
    obtain ⟨m, -, rfl⟩ := List.mem_map.mp ha
    exact ⟨_, _, rfl⟩

theorem always_sent {sent : DownloadLog} (h : Always PickedAs log)
    (hsent : ∀ a ∈ sent, ∃ dst m, a = .sent dst m) : Always PickedAs (log ++ sent) := by
  induction sent generalizing log with
  | nil => rwa [List.append_nil]
  | cons a sent ih =>
    obtain ⟨dst, m, rfl⟩ := hsent a List.mem_cons_self
    rw [List.append_cons]
    exact ih (always_concat.mpr ⟨h, trivial⟩) fun a ha => hsent a (List.mem_cons_of_mem _ ha)

theorem pickInv_userGet {outf : String} {parsed : Option (List (Int × Hash))} (h : PickInv d log)
    (hok : PositionIds d log (.userGet outf parsed)) (hs : userGet env outf parsed d = .ok (d', l)) :
    PickInv d' (log ++ l) := by
  have hhanded := handedInv_userGet h.toHandedInv hs
  rcases userGet_cases hs with ⟨rfl, rfl⟩ | ⟨lines, sent, -, rfl, hsent, rfl, rfl⟩
  · rw [List.append_nil] at hhanded ⊢
    exact ⟨hhanded, h.ids, h.picked⟩
  · refine ⟨hhanded, fun lines' hlines => ?_, always_sent h.picked (whohasFlooding_sent hsent)⟩
    have hsame : lines = lines' := (line_requestEntry lines).symm.trans (Option.some.inj hlines)
    exact hsame ▸ hok

/-- Every payload accepted for a peer is saved to the entry that was picked and handed to the slot of
the peer, and that entry is the one that completes. -/
theorem accepted_entry_picked {max : Nat} {has : List Chunk} {files : String → Memory}
    (h : (downloadMachine env).Reach (· = initDownloads max has files) PositionIds d log) :
    Always PickedAs log := by
  have hinv : PickInv d log := by
    refine run_invariant False False (fun d hd => ?_)
      (fun _ _ _ _ hv => hv.elim) (fun _ _ _ _ _ hl => hl.elim)
      (fun d log l d' hI hm => pickInv_move hI hm)
      (fun d log outf parsed l d' hI hok hs => pickInv_userGet hI hok hs) h
    subst hd
    exact ⟨handedInv_init max has files, fun lines hlines => (by cases hlines), always_nil⟩
  exact hinv.picked

theorem sample_positions : IdsArePositions [(0, sampleHash 0), (1, sampleHash 1)] := by
  intro j line hget n hn _
  match j with
  | 0 =>
    cases hget
    exact Int.ofNat.inj (hn.symm.trans (show lineId (sampleHash 0) _ = (0 : Nat) from rfl))
  | 1 =>
    cases hget
    exact Int.ofNat.inj (hn.symm.trans (show lineId (sampleHash 1) _ = (1 : Nat) from rfl))
  | _ + 2 => cases hget

/-- Peer 1 offers the chunk of line 1 and sends its first packet. -/
theorem accepted_entry_picked_one : ∃ log : DownloadLog, handedTo 0 log = some (1, 1) ∧
    Always PickedAs log := by
  have hstart : (downloadMachine sampleEnv).Reach (· = initDownloads 1 [] fun _ _ => 0) PositionIds
    (initDownloads 1 [] fun _ _ => 0) [] := .start rfl
  have hholds : ∀ ev ∈ [DownloadEvent.userGet "out" (some [(0, sampleHash 0), (1, sampleHash 1)]),
      .ihave sampleSrc 1 (samplePacket (.ihave [sampleHash 1])) fun _ => 0,
      .data sampleSrc 1 (samplePacket (.data 1 [7])) fun _ => 0], ∀ d, PositionIds d [] ev := by
    simp [PositionIds, sample_positions]
  have hreach := hstart.run (C := fun d ev => PositionIds d [] ev) (fun _ _ _ hev => hev) _
    (.of_forall _ _ hholds) rfl
  refine ⟨_, ?_, accepted_entry_picked hreach⟩
  rfl

set_option maxRecDepth 4000 in
/-- The ids of two lines are swapped: the packet of peer 1, who was handed entry 0, is saved to entry
1, which was handed to peer 2. -/
theorem swapped_ids_mix_entries : ∃ d log,
    (downloadMachine sampleEnv).Reach (· = initDownloads 2 [] fun _ _ => 0) ValidPeers d log ∧
      ¬ Always PickedAs log := by
  have hreach := ValidPeers.run sampleEnv 2 [] (fun _ _ => 0)
    [.userGet "out" (some [(1, sampleHash 0), (0, sampleHash 1)]),
      .ihave sampleSrc 1 (samplePacket (.ihave [sampleHash 0])) fun _ => 0,
      .ihave sampleSrc 2 (samplePacket (.ihave [sampleHash 1])) fun _ => 0,
      .data sampleSrc 1 (samplePacket (.data 1 [7])) fun _ => 0]
    (by simp [ValidPeer, idNull]) rfl
  refine ⟨_, _, hreach, fun h => ?_⟩
  have haccepted := h [.sent (some sampleSrc) (.whohas [sampleHash 0, sampleHash 1]), .picked 0,
    .handed 0 1 0, .sent (some sampleSrc) (.get (sampleHash 0)), .picked 1, .handed 1 2 1,
    .sent (some sampleSrc) (.get (sampleHash 1)), .sent (some sampleSrc) (.ack 1)]
    (.accepted 0 1 1 1 1) [] rfl
  have hmixed : (some (1, 0) : Option (Int × Nat)) = some (1, 1) := haccepted
  simp at hmixed

end Bittorrent
