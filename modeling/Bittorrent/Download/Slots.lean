import Bittorrent.Download.Buffer
import Bittorrent.Lib.Matching

/-!
# Active slots and RECEIVING entries

For a request whose hashes are distinct, the active download slots and the RECEIVING entries match
one to one (`SlotsMatch`) as long as no step takes one of the branches that part them: a pick that
finds no free slot, a payload that completes another entry, a DENIED for a stream that is active, and
a timeout that frees another slot of the same peer or returns before the entry is reset.

The proof follows the moves. `KeepsLink` rules out the branches above by what the state before the step says
(`linked_of_keepsLink`), so a step is a path of linked moves, and each of these either leaves the slots and
entries alone, adds a hash to both sides (an entry is picked, `Matching.add`) or takes one from both
(`Matching.close`). A new request begins without a RECEIVING entry, and as no slot has a hash without a
request, without an active slot (`slotInv_userGet`). For the branches that are ruled out,
`streams_part_from_entries` runs one input each: an entry is RECEIVING and no slot is its own.
-/

namespace Bittorrent

variable {env : Env} {valid linked : Prop} {d d' : Downloads} {log l : DownloadLog} {p : Int}
  {i index entry : Nat} {slot slot' : DownloadSlot} {hash h : Hash} {request : Request}
  {chunk chunk' : Chunk}

/-! ## Slots and entries by hash -/

/-- The slot is active for the hash. -/
def SlotFor (d : Downloads) (i : Nat) (hash : Hash) : Prop :=
  ∃ slot, d.slots[i]? = some slot ∧ slot.downloadId ≠ idNull ∧ slot.downloadChunk = some hash

/-- An entry with the hash is RECEIVING. -/
def Receiving (d : Downloads) (hash : Hash) : Prop :=
  ∃ (request : Request) (entry : Nat) (chunk : Chunk), d.currentRequest = some request ∧
    request.chunks[entry]? = some chunk ∧ chunk.hash = hash ∧ chunk.state = .receiving

/-- No two lines of the request have the same hash. -/
def HashesDistinct (lines : List (Int × Hash)) : Prop :=
  ∀ (i j : Nat) (a b : Int × Hash), lines[i]? = some a → lines[j]? = some b → a.2 = b.2 → i = j

theorem slotFor_write (hi : d.slots[index]? = some slot) : SlotFor (d.write index slot') i h ↔
    (i = index ∧ slot'.downloadId ≠ idNull ∧ slot'.downloadChunk = some h) ∨
      (i ≠ index ∧ SlotFor d i h) := by
  have hlt := (List.getElem?_eq_some_iff.mp hi).1
  constructor
  · rintro ⟨s, hs, hactive, hhash⟩
    rcases Table.get_set_cases hlt hs with ⟨rfl, rfl⟩ | ⟨hne, hs⟩
    · exact Or.inl ⟨rfl, hactive, hhash⟩
    · exact Or.inr ⟨hne, s, hs, hactive, hhash⟩
  · rintro (⟨rfl, hactive, hhash⟩ | ⟨hne, s, hs, hactive, hhash⟩)
    · exact ⟨slot', Table.get_set_self hlt, hactive, hhash⟩
    · exact ⟨s, (Table.get_set_ne (Ne.symm hne)).trans hs, hactive, hhash⟩

theorem slotFor_self (hi : d.slots[index]? = some slot) :
    SlotFor d index h ↔ slot.downloadId ≠ idNull ∧ slot.downloadChunk = some h := by
  constructor
  · rintro ⟨s, hs, hactive, hhash⟩
    rw [hi] at hs
    cases hs
    exact ⟨hactive, hhash⟩
  · exact fun hs => ⟨slot, hi, hs⟩

theorem slotFor_same (hi : d.slots[index]? = some slot) (hid : slot'.downloadId = slot.downloadId)
    (hhash : slot'.downloadChunk = slot.downloadChunk) :
    SlotFor (d.write index slot') i h ↔ SlotFor d i h := by
  rw [slotFor_write hi, hid, hhash]
  by_cases hne : i = index
  · subst hne
    rw [slotFor_self hi]
    simp
  · simp [hne]

theorem slotFor_open (hi : d.slots[index]? = some slot) (hfree : slot.downloadId = idNull)
    (hp : slot'.downloadId ≠ idNull) (hhash : slot'.downloadChunk = some hash) :
    SlotFor (d.write index slot') i h ↔ SlotFor d i h ∨ (i = index ∧ h = hash) := by
  rw [slotFor_write hi, hhash]
  by_cases hne : i = index
  · subst hne
    rw [slotFor_self hi, Option.some.injEq]
    simp [hfree, hp, eq_comm]
  · simp [hne]

theorem slotFor_abort (hi : d.slots[index]? = some slot) :
    SlotFor (d.write index slot.abort) i h ↔ SlotFor d i h ∧ i ≠ index := by
  rw [slotFor_write hi]
  have hfree : slot.abort.downloadId = idNull := rfl
  simp [hfree, and_comm]

theorem receiving_writeChunk (chunk' : Chunk)
    (hdistinct : ∀ lines, d.lines = some lines → HashesDistinct lines)
    (hrequest : d.currentRequest = some request) (hget : request.chunks[entry]? = some chunk)
    (hhash : chunk'.hash = chunk.hash) : Receiving (d.writeChunk entry chunk') h ↔
      (h = chunk.hash ∧ chunk'.state = .receiving) ∨ (h ≠ chunk.hash ∧ Receiving d h) := by
  have hlt := (List.getElem?_eq_some_iff.mp hget).1
  have hcurrent := writeChunk_currentRequest hrequest entry chunk'
  constructor
  · rintro ⟨request', e, c, hreq, hc, rfl, hstate⟩
    rw [hcurrent] at hreq
    cases hreq
    rcases Table.get_set_cases hlt hc with ⟨rfl, rfl⟩ | ⟨hne, hc⟩
    · exact Or.inl ⟨hhash, hstate⟩
    · refine Or.inr ⟨fun he => hne ?_, request, e, c, hrequest, hc, rfl, hstate⟩
      refine hdistinct (request.chunks.map Chunk.line) ?_ e entry c.line chunk.line ?_ ?_ he
      · rw [Downloads.lines, hrequest]
        rfl
      · rw [List.getElem?_map, hc]
        rfl
      · rw [List.getElem?_map, hget]
        rfl
  · rintro (⟨rfl, hstate⟩ | ⟨hne, request', e, c, hreq, hc, rfl, hstate⟩)
    · exact ⟨_, entry, chunk', hcurrent, Table.get_set_self hlt, hhash, hstate⟩
    · rw [hrequest] at hreq
      cases hreq
      refine ⟨_, e, c, hcurrent, (Table.get_set_ne fun he => hne ?_).trans hc, rfl, hstate⟩
      subst he
      rw [hget] at hc
      cases hc
      rfl

theorem receiving_self (hdistinct : ∀ lines, d.lines = some lines → HashesDistinct lines)
    (hrequest : d.currentRequest = some request) (hget : request.chunks[entry]? = some chunk) :
    Receiving d chunk.hash ↔ chunk.state = .receiving := by
  have hself := receiving_writeChunk (h := chunk.hash) chunk hdistinct hrequest hget rfl
  have hsame : d.writeChunk entry chunk = d := by
    rw [Downloads.writeChunk, hrequest]
    simp only [Option.map_some, Table.set_self hget]
    rw [← hrequest]
  rw [hsame] at hself
  simpa using hself

theorem receiving_pick (hdistinct : ∀ lines, d.lines = some lines → HashesDistinct lines)
    (hentry : Unfinished d request entry chunk) :
    Receiving (d.writeChunk entry { chunk with state := .receiving }) h ↔
      Receiving d h ∨ h = chunk.hash := by
  rw [receiving_writeChunk { chunk with state := .receiving } hdistinct hentry.current hentry.get
    rfl]
  by_cases hh : h = chunk.hash
  · simp [hh]
  · simp [hh]

theorem receiving_drop (chunk' : Chunk)
    (hdistinct : ∀ lines, d.lines = some lines → HashesDistinct lines)
    (hrequest : d.currentRequest = some request) (hget : request.chunks[entry]? = some chunk)
    (hhash : chunk'.hash = chunk.hash) (hstate : chunk'.state ≠ .receiving) :
    Receiving (d.writeChunk entry chunk') h ↔ Receiving d h ∧ h ≠ chunk.hash := by
  rw [receiving_writeChunk chunk' hdistinct hrequest hget hhash]
  simp [hstate, and_comm]

theorem receiving_same (hdistinct : ∀ lines, d.lines = some lines → HashesDistinct lines)
    (hrequest : d.currentRequest = some request) (hget : request.chunks[entry]? = some chunk)
    (hhash : chunk'.hash = chunk.hash) (hstate : chunk'.state = chunk.state) :
    Receiving (d.writeChunk entry chunk') h ↔ Receiving d h := by
  rw [receiving_writeChunk chunk' hdistinct hrequest hget hhash, hstate]
  by_cases hh : h = chunk.hash
  · subst hh
    rw [receiving_self hdistinct hrequest hget]
    simp
  · simp [hh]

theorem receiving_resetChunk (hdistinct : ∀ lines, d.lines = some lines → HashesDistinct lines) :
    Receiving (resetChunk hash d) h ↔ Receiving d h ∧ h ≠ hash := by
  have hno : ∀ {d : Downloads}, ¬ Receiving d hash → (Receiving d h ↔ Receiving d h ∧ h ≠ hash) :=
    fun hnot => ⟨fun hr => ⟨hr, fun he => hnot (he ▸ hr)⟩, fun hr => hr.1⟩
  unfold resetChunk
  split
  · rename_i hnone
    refine hno ?_
    rintro ⟨request, e, c, hrequest, -⟩
    rw [hnone] at hrequest
    cases hrequest
  · rename_i request hrequest
    split
    · rename_i hlookup
      refine hno ?_
      rintro ⟨request', e, c, hreq, hc, hhash, -⟩
      rw [hrequest] at hreq
      cases hreq
      exact Table.lookup_eq_none.mp hlookup e c hc hhash
    · rename_i entry chunk hfound
      have hdrop := receiving_drop (h := h) (chunk.reset .notStarted) hdistinct hrequest
        (Table.lookup_get hfound) rfl (by simp [Chunk.reset])
      rw [show chunk.hash = hash from Table.lookup_key hfound] at hdrop
      exact hdrop

/-! ## The invariant -/

structure SlotInv (d : Downloads) (log : DownloadLog) : Prop where
  inv : DownloadInv d log
  distinct : ∀ lines, d.lines = some lines → HashesDistinct lines
  peers : PeersValid d.connections
  matching : Matching (SlotFor d) (Receiving d)

theorem Matching.close {S : Downloads} (hm : Matching (SlotFor d) (Receiving d))
    (hi : d.slots[index]? = some slot) (hactive : slot.downloadId ≠ idNull)
    (hnamed : slot.downloadChunk = some hash) (hslots : S.slots = d.slots)
    (hreceiving : ∀ h, Receiving S h ↔ Receiving d h ∧ h ≠ hash) :
    Matching (SlotFor (S.write index slot.abort)) (Receiving (S.write index slot.abort)) := by
  have hi' : S.slots[index]? = some slot := hslots ▸ hi
  have hsame : ∀ i h, SlotFor S i h ↔ SlotFor d i h := by
    intro i h
    unfold SlotFor
    rw [hslots]
  have hat : SlotFor d index hash := (slotFor_self hi).mpr ⟨hactive, hnamed⟩
  refine hm.remove hat (fun k hk => ?_) (fun i h => ?_) hreceiving
  · have hk := ((slotFor_self hi).mp hk).2
    rw [hnamed] at hk
    exact (Option.some.inj hk).symm
  · rw [slotFor_abort hi', hsame]

theorem matching_move (h : SlotInv d log) (hm : Move env True True d l d') :
    Matching (SlotFor d') (Receiving d') := by
  cases hm with
  | sent dst m => exact h.matching
  | connected connections _ => exact h.matching
  | tracked records now hslot _ =>
    exact h.matching.congr (fun i k => slotFor_same hslot rfl rfl) fun _ => Iff.rfl
  | marked hlink hentry => exact absurd trivial hlink
  | @opened request entry index chunk slot p now hentry hslot hpeer =>
    have hnew : ¬ Receiving d chunk.hash := by
      rw [receiving_self h.distinct hentry.current hentry.get, hentry.state]
      decide
    have hget := getDownloadIndexById_get hslot
    exact h.matching.add hnew
      (fun i k => slotFor_open (d := d.writeChunk entry { chunk with state := .receiving }) hget
        (getDownloadIndexById_id hslot) (hpeer trivial h.peers) rfl)
      fun k => receiving_pick h.distinct hentry
  | accepted packet htarget hsave =>
    obtain ⟨-, hhash, hstate, -⟩ := saveDataPacket_ok hsave
    exact h.matching.congr (fun _ _ => Iff.rfl)
      fun k => receiving_same h.distinct htarget.current htarget.get hhash hstate
  | @failed p index entry slot hash request chunk chunk' data packet htarget hfull _ hvalid hlink =>
    have hhash : chunk'.hash = chunk.hash := (saveDataPacket_ok hfull.save).2.1
    have hactive := getDownloadIndexById_id htarget.found ▸ hvalid trivial
    refine h.matching.close (getDownloadIndexById_get htarget.found) hactive htarget.named rfl
      fun k => ?_
    rw [receiving_drop (chunk'.reset .notStarted) h.distinct htarget.current htarget.get
      hhash (by simp [Chunk.reset]), hlink trivial]
  | @verified p index entry slot hash request chunk chunk' data packet htarget hfull _ hvalid hlink =>
    have hhash : chunk'.hash = chunk.hash := (saveDataPacket_ok hfull.save).2.1
    have hactive := getDownloadIndexById_id htarget.found ▸ hvalid trivial
    refine h.matching.close (getDownloadIndexById_get htarget.found) hactive htarget.named rfl
      fun k => ?_
    rw [receiving_drop (d := d.store env request.filename chunk' data) (chunk'.reset .owned)
      h.distinct htarget.current htarget.get hhash
      (by simp [Chunk.reset]), hlink trivial]
    rfl
  | denied hlink hslot => exact absurd trivial hlink
  | @crashed i index idle slot hash request hidle hactive hhash hslot hrequest hlink =>
    have hget := getDownloadIndexById_get hslot
    obtain rfl : i = index := hlink trivial
    rw [hidle] at hget
    cases hget
    rw [resetChunk_write]
    exact h.matching.close hidle hactive hhash resetChunk_slots
      fun k => receiving_resetChunk h.distinct
  | finished hall =>
    have hnone : ∀ k, ¬ Receiving d k := by
      rintro k ⟨request, e, c, hrequest, hc, -, hstate⟩
      rw [allChunkFinished, hrequest] at hall
      have howned := List.all_eq_true.mp hall c (List.mem_of_getElem? hc)
      rw [decide_eq_true_eq, hstate] at howned
      cases howned
    refine h.matching.congr (fun _ _ => Iff.rfl) fun k => ⟨?_, fun hk => absurd hk (hnone k)⟩
    rintro ⟨request, -, -, hrequest, -⟩
    cases hrequest

theorem slotInv_move (h : SlotInv d log) (hm : Move env True True d l d') :
    SlotInv d' (log ++ l) := by
  refine ⟨downloadInv_move h.inv hm, fun lines hlines => ?_, peersValid_move h.peers hm,
    matching_move h hm⟩
  rcases hm.lines with hsame | hnone
  · exact h.distinct lines (hsame ▸ hlines)
  · rw [Downloads.lines, hnone] at hlines
    cases hlines

/-! ## Runs -/

/-- What a step must meet. A picked entry finds a free slot; a payload that fills an entry fills the
one its stream is for; the sender of a DENIED has no stream; a stream that times out is the first of
its peer, which has a positive id and, with it, some connection; and the hashes of a request file are
distinct. -/
def KeepsLink (d : Downloads) (_ : DownloadLog) : DownloadEvent → Prop
  | .userGet _ parsed => ∀ lines, parsed = some lines → HashesDistinct lines
  | .crash clk rto => ∀ idle, d.slots.find? (DownloadSlot.timedOut (clk 0) rto) = some idle →
      0 < idle.downloadId ∧ d.connections ≠ [] ∧
        ∀ index slot, getDownloadIndexById idle.downloadId d = some (index, slot) →
          slot.timedOut (clk 0) rto = true
  | ev => ValidPeer ev ∧ Linked d ev

theorem validPeer_of_keepsLink {ev : DownloadEvent} (h : KeepsLink d log ev) : ValidPeer ev := by
  unfold KeepsLink at h
  split at h
  · trivial
  · trivial
  · exact h.1

theorem linked_of_keepsLink {ev : DownloadEvent} (hinv : SlotInv d log) (h : KeepsLink d log ev) :
    Linked d ev := by
  unfold KeepsLink at h
  split at h
  · trivial
  · intro idle hfind
    obtain ⟨hpos, hconn, htimed⟩ := h idle hfind
    refine ⟨hpos, hconn, fun hnone => ?_, htimed⟩
    obtain ⟨i, hi⟩ := List.mem_iff_getElem?.mp (List.mem_of_find?_eq_some hfind)
    obtain ⟨request, hrequest⟩ := hinv.inv.hasRequest hi (hinv.inv.named i idle hi fun hzero => by
      rw [hzero] at hpos
      exact absurd hpos (by decide))
    rw [hnone] at hrequest
    cases hrequest
  · exact h.2

/-- The active slots and the RECEIVING entries in bijection. -/
structure SlotsMatch (d : Downloads) : Prop where
  /-- Of the entries exactly one has the hash of an active slot, and it is RECEIVING. -/
  entry : ∀ (i : Nat) (slot : DownloadSlot), d.slots[i]? = some slot → slot.downloadId ≠ idNull →
    ∃ request entry chunk, d.currentRequest = some request ∧
      request.chunks[entry]? = some chunk ∧ slot.downloadChunk = some chunk.hash ∧
      chunk.state = .receiving ∧
      ∀ (e : Nat) (c : Chunk), request.chunks[e]? = some c → c.hash = chunk.hash → e = entry
  /-- No two active slots have the same hash. -/
  unique : ∀ (i j : Nat) (a b : DownloadSlot), d.slots[i]? = some a → d.slots[j]? = some b →
    a.downloadId ≠ idNull → b.downloadId ≠ idNull → a.downloadChunk = b.downloadChunk → i = j
  /-- Every RECEIVING entry has an active slot with its hash. -/
  slot : ∀ request, d.currentRequest = some request → ∀ chunk ∈ request.chunks,
    chunk.state = .receiving → ∃ (i : Nat) (slot : DownloadSlot), d.slots[i]? = some slot ∧
      slot.downloadId ≠ idNull ∧ slot.downloadChunk = some chunk.hash

theorem SlotInv.slotsMatch (h : SlotInv d log) : SlotsMatch d where
  entry i slot hi hactive := by
    obtain ⟨hash, hnamed⟩ := Option.ne_none_iff_exists'.mp (h.inv.named i slot hi hactive)
    obtain ⟨request, entry, chunk, hrequest, hget, rfl, hstate⟩ :=
      h.matching.sound i hash ⟨slot, hi, hactive, hnamed⟩
    refine ⟨request, entry, chunk, hrequest, hget, hnamed, hstate, fun e c hc hhash => ?_⟩
    refine h.distinct (request.chunks.map Chunk.line) ?_ e entry c.line chunk.line ?_ ?_ hhash
    · rw [Downloads.lines, hrequest]
      rfl
    · rw [List.getElem?_map, hc]
      rfl
    · rw [List.getElem?_map, hget]
      rfl
  unique i j a b hi hj ha hb hsame := by
    obtain ⟨hash, hnamed⟩ := Option.ne_none_iff_exists'.mp (h.inv.named i a hi ha)
    exact h.matching.unique i j hash ⟨a, hi, ha, hnamed⟩ ⟨b, hj, hb, hsame ▸ hnamed⟩
  slot request hrequest chunk hmem hstate := by
    obtain ⟨entry, hget⟩ := List.mem_iff_getElem?.mp hmem
    exact h.matching.total chunk.hash ⟨request, entry, chunk, hrequest, hget, rfl, hstate⟩

theorem slotInv_init (max : Nat) (has : List Chunk) (files : String → Memory) :
    SlotInv (initDownloads max has files) [] := by
  refine ⟨downloadInv_init max has files, fun lines hlines => ?_, fun c hc => ?_, ?_⟩
  · cases hlines
  · cases hc
  · refine .empty (fun i k => ?_) fun k => ?_
    · rintro ⟨slot, hi, hactive, -⟩
      exact hactive (congrArg DownloadSlot.downloadId
        (List.eq_of_mem_replicate (List.mem_of_getElem? hi)))
    · rintro ⟨request, -, -, hrequest, -⟩
      cases hrequest

theorem slotInv_userGet {outf : String} {parsed : Option (List (Int × Hash))} (h : SlotInv d log)
    (hok : ∀ lines, parsed = some lines → HashesDistinct lines)
    (hs : userGet env outf parsed d = .ok (d', l)) : SlotInv d' (log ++ l) := by
  have hinv := downloadInv_userGet h.inv hs
  rcases userGet_cases hs with ⟨rfl, rfl⟩ | ⟨lines, sent, hnone, rfl, -, rfl, rfl⟩
  · exact ⟨hinv, h.distinct, h.peers, h.matching⟩
  · refine ⟨hinv, fun lines' hlines => ?_, h.peers, .empty (fun i k => ?_) fun k => ?_⟩
    · have hsame : lines = lines' := (line_requestEntry lines).symm.trans (Option.some.inj hlines)
      exact hsame ▸ hok lines rfl
    · rintro ⟨slot, hi, hactive, -⟩
      obtain ⟨request, hrequest⟩ := h.inv.hasRequest hi (h.inv.named i slot hi hactive)
      rw [hnone] at hrequest
      cases hrequest
    · rintro ⟨request, entry, chunk, hrequest, hget, -, hstate⟩
      cases hrequest
      rw [List.getElem?_map] at hget
      obtain ⟨line, -, rfl⟩ := Option.map_eq_some_iff.mp hget
      cases hstate

/-- The active slots and the RECEIVING entries match in every state reached by steps that keep the
link. -/
theorem slots_match_entries {max : Nat} {has : List Chunk} {files : String → Memory}
    (h : (downloadMachine env).Reach (· = initDownloads max has files) KeepsLink d log) :
    SlotsMatch d := by
  have hinv : SlotInv d log := by
    refine run_invariant True True (fun d hd => ?_)
      (fun d log ev hok _ => validPeer_of_keepsLink hok)
      (fun d log ev hI hok _ => linked_of_keepsLink hI hok)
      (fun d log l d' hI hm => slotInv_move hI hm)
      (fun d log outf parsed l d' hI hok hs => slotInv_userGet hI hok hs) h
    subst hd
    exact slotInv_init max has files
  exact hinv.slotsMatch

/-- Two lines with different hashes. -/
def sampleLines : List (Int × Hash) := [(0, sampleHash 0), (1, sampleHash 1)]

theorem sampleLines_distinct : HashesDistinct sampleLines := by
  intro i j a b ha hb hab
  match i, j with
  | 0, 0 => rfl
  | 1, 1 => rfl
  | 0, 1 =>
    cases ha
    cases hb
    exact absurd hab (by decide)
  | 1, 0 =>
    cases ha
    cases hb
    exact absurd hab (by decide)
  | _ + 2, _ => cases ha
  | _, _ + 2 => cases hb

/-- Two peers offer one chunk each. -/
theorem slots_match_entries_two : ∃ d, SlotFor d 1 (sampleHash 1) ∧ SlotsMatch d := by
  have hstart : (downloadMachine sampleEnv).Reach (· = initDownloads 2 [] fun _ _ => 0) KeepsLink
    (initDownloads 2 [] fun _ _ => 0) [] := .start rfl
  have hget := hstart.step (e := DownloadEvent.userGet "out" (some sampleLines))
    (fun lines hl => Option.some.inj hl ▸ sampleLines_distinct) rfl
  have hone := hget.step (e := DownloadEvent.ihave sampleSrc 1
    (samplePacket (.ihave [sampleHash 0])) fun _ => 0)
    ⟨Int.one_ne_zero, fun _ => Option.some_ne_none _⟩ rfl
  have htwo := hone.step (e := DownloadEvent.ihave sampleSrc 2
    (samplePacket (.ihave [sampleHash 1])) fun _ => 0)
    ⟨(by decide : (2 : Int) ≠ 0), fun _ => Option.some_ne_none _⟩ rfl
  exact ⟨_, ⟨_, rfl, by decide, rfl⟩, slots_match_entries htwo⟩

/-! ## The branches that part slots from entries -/

/-- No condition but those of the property: the hashes of a request are distinct and no peer is
`ID_NULL`. -/
def DistinctRequests (_ : Downloads) (_ : DownloadLog) : DownloadEvent → Prop
  | .userGet _ parsed => ∀ lines, parsed = some lines → HashesDistinct lines
  | ev => ValidPeer ev

/-- Some RECEIVING entry has no active slot. -/
def orphaned (d : Downloads) : Bool :=
  match d.currentRequest with
  | none => false
  | some request => request.chunks.any fun chunk => chunk.state = .receiving ∧
      d.slots.all fun slot => slot.downloadId = idNull ∨ slot.downloadChunk ≠ some chunk.hash

theorem not_slotsMatch_of_orphaned (h : orphaned d = true) : ¬ SlotsMatch d := by
  intro hmatch
  unfold orphaned at h
  split at h
  · cases h
  · rename_i request hrequest
    obtain ⟨chunk, hmem, hchunk⟩ := List.any_eq_true.mp h
    obtain ⟨hstate, hall⟩ := of_decide_eq_true hchunk
    obtain ⟨i, slot, hi, hactive, hhash⟩ := hmatch.slot request hrequest chunk hmem hstate
    have hslot := List.all_eq_true.mp hall slot (List.mem_of_getElem? hi)
    rcases of_decide_eq_true hslot with hnull | hne
    · exact hactive hnull
    · exact hne hhash

/-- A run of requests with distinct hashes that leaves a RECEIVING entry without a slot. -/
theorem part_of_run {max : Nat} (events : List DownloadEvent)
    (hpeers : ∀ ev ∈ events, ValidPeer ev)
    (hrun : ((downloadMachine sampleEnv).run (.userGet "out" (some sampleLines) :: events)
      (initDownloads max [] fun _ _ => 0)).toOption.any (fun r => orphaned r.1) = true)
    (huser : ∀ outf parsed, .userGet outf parsed ∉ events) :
    ∃ d log, (downloadMachine sampleEnv).Reach (· = initDownloads max [] fun _ _ => 0)
      DistinctRequests d log ∧ ¬ SlotsMatch d := by
  cases hr : (downloadMachine sampleEnv).run (.userGet "out" (some sampleLines) :: events)
    (initDownloads max [] fun _ _ => 0) with
  | error f =>
    rw [hr] at hrun
    cases hrun
  | ok r =>
    rw [hr] at hrun
    refine ⟨r.1, [] ++ r.2, ?_, not_slotsMatch_of_orphaned hrun⟩
    have hok : ∀ ev ∈ DownloadEvent.userGet "out" (some sampleLines) :: events,
        ∀ d, DistinctRequests d [] ev := by
      intro ev hev d
      rcases List.mem_cons.mp hev with rfl | hev
      · exact fun lines hl => Option.some.inj hl ▸ sampleLines_distinct
      · have hpeer := hpeers ev hev
        cases ev with
        | userGet outf parsed => exact absurd hev (huser outf parsed)
        | _ => exact hpeer
    have hstart : (downloadMachine sampleEnv).Reach (· = initDownloads max [] fun _ _ => 0)
      DistinctRequests (initDownloads max [] fun _ _ => 0) [] := .start rfl
    exact hstart.run (C := fun d ev => DistinctRequests d [] ev) (fun _ _ _ hev => hev) _
      (.of_forall _ _ hok) hr

/-- A RECEIVING entry is left without a slot when it is picked and no slot is free, when a DENIED
arrives, and when the second stream of a peer times out. -/
theorem streams_part_from_entries :
    (∃ d log, (downloadMachine sampleEnv).Reach (· = initDownloads 1 [] fun _ _ => 0)
      DistinctRequests d log ∧ ¬ SlotsMatch d) ∧
    (∃ d log, (downloadMachine sampleEnv).Reach (· = initDownloads 2 [] fun _ _ => 0)
      DistinctRequests d log ∧ ¬ SlotsMatch d) ∧
    (∃ d log, (downloadMachine sampleEnv).Reach (· = initDownloads 2 [] fun _ _ => 0)
      DistinctRequests d log ∧ ¬ SlotsMatch d) := by
  refine ⟨part_of_run [
      .ihave sampleSrc 1 (samplePacket (.ihave [sampleHash 0])) fun _ => 0,
      .ihave sampleSrc 2 (samplePacket (.ihave [sampleHash 1])) fun _ => 0] ?_ rfl ?_,
    part_of_run [
      .ihave sampleSrc 1 (samplePacket (.ihave [sampleHash 0])) fun _ => 0, .denied 1] ?_ rfl ?_,
    part_of_run [
      .ihave sampleSrc 1 (samplePacket (.ihave [sampleHash 0])) fun _ => 0,
      .ihave sampleSrc 1 (samplePacket (.ihave [sampleHash 1])) fun _ => 0,
      .data sampleSrc 1 (samplePacket (.data 1 [7])) fun _ => 10000000,
      .crash (fun _ => 10000000) 1600000] ?_ rfl ?_⟩
  all_goals simp [ValidPeer, idNull]

end Bittorrent
