import Bittorrent.Download.Integrity

/-!
# Delivered files

What is left of a request when it is over: the file holds bytes with the hash of every line, and keeps them
(`Complete`) as long as no later GET line names it, whatever is downloaded to other files.

While the request is in progress its lines are covered by `FileInv`. When it ends all its entries are OWNED,
so every line has its bytes (`FileInv.complete`); from then on the file can only be written by a request
with the same name, and `Named` says of the request that follows that it has another one, so `files_move`
leaves the file alone. `Delivery` is the disjunction of the two, kept by every move and by every GET line
for another file, which is what `run_invariant` asks for.
-/

namespace Bittorrent

variable {env : Env} {valid linked : Prop} {d d' : Downloads} {log l : DownloadLog} {entry : Nat}
  {chunk : Chunk} {outf : String} {lines : List (Int × Hash)} {has : List Chunk}
  {P : Option String → Prop}

/-! ## The file of the request -/

/-- A property of the name of the file that the current request writes. -/
def Named (P : Option String → Prop) (d : Downloads) : Prop :=
  ∀ request, d.currentRequest = some request → P request.filename

theorem Named.writeChunk (h : Named P d) (entry : Nat) (chunk : Chunk) : Named P (d.writeChunk entry chunk) := by
  intro request hrequest
  obtain ⟨request', hrequest', rfl⟩ := Option.map_eq_some_iff.mp hrequest
  exact h request' hrequest'

theorem Named.resetChunk (h : Named P d) (hash : Hash) : Named P (resetChunk hash d) := by
  unfold Bittorrent.resetChunk
  split
  · exact h
  · split
    · exact h
    · exact h.writeChunk _ _

theorem resetChunk_files (hash : Hash) (d : Downloads) : (resetChunk hash d).files = d.files := by
  unfold resetChunk
  split
  · rfl
  · split <;> rfl

theorem Named.move (h : Named P d) (hm : Move env valid linked d l d') : Named P d' := by
  cases hm with
  | sent dst m => exact h
  | connected connections _ => exact h
  | tracked records now _ _ => exact h
  | marked _ _ => exact h.writeChunk _ _
  | opened _ _ _ _ => exact h.writeChunk _ _
  | accepted _ _ _ => exact h.writeChunk _ _
  | failed _ _ _ _ _ _ => exact h.writeChunk _ _
  | @verified p index entry slot hash request chunk chunk' data packet _ _ _ _ _ =>
    exact Named.writeChunk (d := d.store env request.filename chunk' data) h _ _
  | denied _ _ => exact h
  | crashed _ _ _ _ _ _ => exact Named.resetChunk (d := d.write _ _) h _
  | finished _ =>
    intro request hrequest
    cases hrequest

theorem files_move (h : Named (· ≠ some outf) d) (hm : Move env valid linked d l d') :
    d'.files outf = d.files outf := by
  cases hm with
  | sent dst m => rfl
  | connected connections _ => rfl
  | tracked records now _ _ => rfl
  | marked _ _ => rfl
  | opened _ _ _ _ => rfl
  | accepted _ _ _ => rfl
  | failed _ _ _ _ _ _ => rfl
  | @verified p index entry slot hash request chunk chunk' data packet htarget _ _ _ _ =>
    have hother : request.filename ≠ some outf := h request htarget.current
    change storeChunk env request.filename chunk'.id data d.files outf = d.files outf
    cases hname : request.filename with
    | none => rfl
    | some name =>
      refine Function.update_of_ne (fun heq => hother ?_) _ _
      rw [hname, heq]
  | denied _ _ => rfl
  | crashed _ _ _ _ _ _ => exact congrFun (resetChunk_files _ _) outf
  | finished _ => rfl

/-! ## Before and after the end of a request -/

/-- The request is over, and the bytes of every line are in the file. -/
structure Complete (env : Env) (outf : String) (lines : List (Int × Hash)) (d : Downloads) : Prop where
  elsewhere : Named (· ≠ some outf) d
  verified : ∀ line ∈ lines, env.shahash (fileChunk (d.files outf) line.1) = line.2

/-- The request is in progress, or over. -/
def Delivery (env : Env) (outf : String) (lines : List (Int × Hash)) (has : List Chunk) (d : Downloads)
    (log : DownloadLog) : Prop :=
  (d.lines = some lines ∧ FileInv env outf lines has d log) ∨ Complete env outf lines d

theorem FileInv.complete (h : FileInv env outf lines has d log) (hlines : d.lines = some lines)
    (hall : allChunkFinished d) : Complete env outf lines { d with currentRequest := none } := by
  refine ⟨?_, fun line hmem => ?_⟩
  · intro request hrequest
    cases hrequest
  · obtain ⟨request, hrequest, hmap⟩ := Option.map_eq_some_iff.mp hlines
    rw [← hmap] at hmem
    obtain ⟨chunk, hchunk, rfl⟩ := List.mem_map.mp hmem
    obtain ⟨entry, hget⟩ := List.mem_iff_getElem?.mp hchunk
    rw [allChunkFinished, hrequest] at hall
    have howned := of_decide_eq_true (List.all_eq_true.mp hall chunk hchunk)
    exact (h.owned request entry chunk hrequest hget).2 howned

theorem Move.ends {request : Request} (hm : Move env valid linked d l d')
    (hrequest : d.currentRequest = some request) (hnone : d'.currentRequest = none) :
    allChunkFinished d ∧ d' = { d with currentRequest := none } := by
  cases hm with
  | finished hall => exact ⟨hall, rfl⟩
  | @crashed i index idle slot hash request' _ _ _ _ _ _ =>
    have hlines := lines_resetChunk hash (d.write index slot.abort)
    rw [Downloads.lines, hnone, Downloads.lines, show (d.write index slot.abort).currentRequest = _ from hrequest]
      at hlines
    cases hlines
  | _ => simp [Downloads.write, Downloads.writeChunk, Downloads.store, hrequest] at hnone

theorem delivery_move (hids : FileIds lines) (hwrites : env.WritesAll outf) (h : Delivery env outf lines has d log)
    (hm : Move env valid linked d l d') : Delivery env outf lines has d' (log ++ l) := by
  rcases h with ⟨hlines, hinv⟩ | hdone
  · rcases hm.lines with hsame | hnone
    · exact Or.inl ⟨hsame.trans hlines, fileInv_move hinv hids hwrites hm⟩
    · obtain ⟨request, hrequest, -⟩ := Option.map_eq_some_iff.mp hlines
      obtain ⟨hall, rfl⟩ := hm.ends hrequest hnone
      exact Or.inr (hinv.complete hlines hall)
  · refine Or.inr ⟨hdone.elsewhere.move hm, fun line hmem => ?_⟩
    rw [files_move hdone.elsewhere hm]
    exact hdone.verified line hmem

theorem delivery_requested (h : Requested outf lines has d) : Delivery env outf lines has d [] := by
  obtain ⟨hrequest, rfl⟩ := h
  refine Or.inl ⟨?_, fun request hr => ?_, .requested hrequest fun e line hline => ?_,
    fun c hmem => Or.inl ⟨c, hmem, rfl⟩⟩
  · rw [Downloads.lines, hrequest, Option.map_some, line_requestEntry]
  · rw [hrequest] at hr
    cases hr
    rfl
  · exact ⟨hline, fun hs => by cases hs⟩

theorem delivery_userGet {name : String} {parsed : Option (List (Int × Hash))} (hname : name ≠ outf)
    (h : Delivery env outf lines has d log) (hs : userGet env name parsed d = .ok (d', l)) :
    Delivery env outf lines has d' (log ++ l) := by
  have hfile : ∀ file, Function.update d.files name file outf = d.files outf := fun file =>
    Function.update_of_ne (Ne.symm hname) _ _
  rcases userGet_cases hs with ⟨rfl, rfl⟩ | ⟨lines', sent, hnone, -, -, rfl, rfl⟩
  · rcases h with ⟨hlines, hinv⟩ | hdone
    · refine Or.inl ⟨hlines, hinv.name, ?_, fun c hmem => (hinv.table c hmem).append []⟩
      change Entries (OwnedInFile env lines (Function.update d.files name _ outf)) _
      rw [hfile]
      exact hinv.owned.congr rfl
    · refine Or.inr ⟨hdone.elsewhere, fun line hmem => ?_⟩
      change env.shahash (fileChunk (Function.update d.files name _ outf) line.1) = line.2
      rw [hfile]
      exact hdone.verified line hmem
  · rcases h with ⟨hlines, -⟩ | hdone
    · rw [Downloads.lines, hnone] at hlines
      cases hlines
    · refine Or.inr ⟨fun request hrequest => ?_, fun line hmem => ?_⟩
      · cases hrequest
        exact fun heq => hname (Option.some.inj heq)
      · change env.shahash (fileChunk (Function.update d.files name _ outf) line.1) = line.2
        rw [hfile]
        exact hdone.verified line hmem

end Bittorrent
