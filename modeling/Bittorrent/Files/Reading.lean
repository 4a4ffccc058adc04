import Bittorrent.Model.ChunkFile

/-!
# Reading a file by lines

A `while(fgets(...))` loop cuts a file into pieces that have at most 254 bytes and never go past a newline.
A line of the file that is that short is read as one piece (`flatMap_fileLines`); a longer one is read as
several, so there are as many pieces as lines only if every line is short (`fits_of_flatMap_fileLines`).

One `fgets` is a front of the text (`takeLine_join`), which ends with a newline, is full, or is all there
is. As it never looks past a newline, a text that begins with whole lines is read line by line, whatever
follows (`takeLine_append`, `fileLines_append`). The loop is by fuel; a round takes a byte at least, so the
length of the file is enough (`readLines_fuel`), and `fileLines_induction` is the induction every later
proof about a file uses.
-/

namespace Bittorrent

variable {room : Nat} {file text line rest : List UInt8} {texts : List (List UInt8)} {terminated : Bool}

/-! ## One `fgets` -/

theorem takeLine_join (room : Nat) (file : List UInt8) :
    (takeLine room file).1 ++ (takeLine room file).2 = file := by
  induction file generalizing room with
  | nil => cases room <;> rfl
  | cons c file ih =>
    cases room with
    | zero => rfl
    | succ room =>
      rw [takeLine]
      split_ifs
      · rfl
      · simp only [List.cons_append, ih]

theorem takeLine_length_le (room : Nat) (file : List UInt8) : (takeLine room file).1.length ≤ room := by
  induction file generalizing room with
  | nil => cases room <;> simp [takeLine]
  | cons c file ih =>
    cases room with
    | zero => simp [takeLine]
    | succ room =>
      rw [takeLine]
      split_ifs
      · simp
      · simpa using ih room

theorem takeLine_ne_nil (hfile : file ≠ []) : (takeLine (room + 1) file).1 ≠ [] := by
  cases file with
  | nil => exact absurd rfl hfile
  | cons c file =>
    rw [takeLine]
    split_ifs <;> simp

theorem takeLine_line (hline : newline ∉ text) (hroom : text.length < room) :
    takeLine room (text ++ newline :: rest) = (text ++ [newline], rest) := by
  induction text generalizing room with
  | nil =>
    cases room with
    | zero => simp at hroom
    | succ room => rfl
  | cons c text ih =>
    cases room with
    | zero => simp at hroom
    | succ room =>
      rw [List.mem_cons, not_or] at hline
      rw [List.cons_append, takeLine, if_neg (Ne.symm hline.1), ih hline.2 (by simpa using hroom)]
      rfl

theorem takeLine_last (hline : newline ∉ text) (hroom : text.length ≤ room) :
    takeLine room text = (text, []) := by
  induction text generalizing room with
  | nil => cases room <;> rfl
  | cons c text ih =>
    cases room with
    | zero => simp at hroom
    | succ room =>
      rw [List.mem_cons, not_or] at hline
      rw [takeLine, if_neg (Ne.symm hline.1), ih hline.2 (by simpa using hroom)]

/-- What is read does not depend on what follows a newline. -/
theorem takeLine_append (hmem : newline ∈ text) (room : Nat) (rest : List UInt8) :
    takeLine room (text ++ rest) = ((takeLine room text).1, (takeLine room text).2 ++ rest) := by
  induction text generalizing room with
  | nil => cases hmem
  | cons c text ih =>
    cases room with
    | zero => rfl
    | succ room =>
      rw [List.cons_append, takeLine, takeLine]
      split_ifs with hc
      · rfl
      · rw [ih ((List.mem_cons.mp hmem).resolve_left (Ne.symm hc))]

/-! ## The loop -/

theorem fgets_eq (hfile : file ≠ []) : fgets maxLineLength file = some (takeLine 254 file) := if_neg hfile

theorem takeLine_rest_lt (hfile : file ≠ []) : (takeLine 254 file).2.length < file.length := by
  have hjoin := congrArg List.length (takeLine_join 254 file)
  have hne : (takeLine 254 file).1 ≠ [] := takeLine_ne_nil hfile
  have hpos := List.length_pos_of_ne_nil hne
  rw [List.length_append] at hjoin
  omega

theorem readLines_nil (fuel : Nat) : readLines fuel [] = [] := by cases fuel <;> rfl

theorem readLines_fuel : ∀ {fuel fuel' : Nat} {file : List UInt8}, file.length ≤ fuel →
    file.length ≤ fuel' → readLines fuel file = readLines fuel' file := by
  intro fuel
  induction fuel with
  | zero =>
    intro fuel' file hfuel _
    obtain rfl := List.length_eq_zero_iff.mp (Nat.le_zero.mp hfuel)
    rw [readLines_nil, readLines_nil]
  | succ fuel ih =>
    intro fuel' file hfuel hfuel'
    by_cases hfile : file = []
    · rw [hfile, readLines_nil, readLines_nil]
    · have hlt := takeLine_rest_lt hfile
      cases fuel' with
      | zero => omega
      | succ fuel' =>
        rw [readLines, readLines, fgets_eq hfile]
        exact congrArg (List.cons _) (ih (by omega) (by omega))

theorem fileLines_nil : fileLines [] = [] := rfl

theorem fileLines_cons (hfile : file ≠ []) :
    fileLines file = (takeLine 254 file).1 :: fileLines (takeLine 254 file).2 := by
  have hlt := takeLine_rest_lt hfile
  obtain ⟨n, hn⟩ : ∃ n, file.length = n + 1 := Nat.exists_eq_succ_of_ne_zero (by omega)
  rw [fileLines, hn, readLines, fgets_eq hfile]
  simp only
  rw [readLines_fuel (by omega) (Nat.le_refl _), fileLines]

theorem fileLines_induction {P : List UInt8 → Prop} (hnil : P [])
    (hcons : ∀ file, file ≠ [] → P (takeLine 254 file).2 → P file) (file : List UInt8) : P file := by
  induction hlen : file.length using Nat.strong_induction_on generalizing file with
  | _ n ih =>
    by_cases hfile : file = []
    · rwa [hfile]
    · exact hcons file hfile (ih _ (hlen ▸ takeLine_rest_lt hfile) _ rfl)

theorem fileLines_flatten (file : List UInt8) : (fileLines file).flatten = file := by
  induction file using fileLines_induction with
  | hnil => rfl
  | hcons file hfile ih => rw [fileLines_cons hfile, List.flatten_cons, ih, takeLine_join]

theorem fileLines_length_le (file : List UInt8) : ∀ line ∈ fileLines file, line.length ≤ 254 := by
  induction file using fileLines_induction with
  | hnil =>
    intro line hmem
    cases hmem
  | hcons file hfile ih =>
    rw [fileLines_cons hfile]
    exact List.forall_mem_cons.mpr ⟨takeLine_length_le 254 file, ih⟩

theorem fileLines_append (hended : file ≠ [] → [newline] <:+ file) (rest : List UInt8) :
    fileLines (file ++ rest) = fileLines file ++ fileLines rest := by
  induction file using fileLines_induction with
  | hnil => rfl
  | hcons file hfile ih =>
    have hsuffix := hended hfile
    have hmem : newline ∈ file := hsuffix.subset (List.mem_singleton_self newline)
    have hended' : (takeLine 254 file).2 ≠ [] → [newline] <:+ (takeLine 254 file).2 := by
      intro hrest
      have hrest' : (takeLine 254 file).2 <:+ file := ⟨_, takeLine_join 254 file⟩
      exact List.suffix_of_suffix_length_le hsuffix hrest' (List.length_pos_of_ne_nil hrest)
    rw [fileLines_cons (by simp [hfile]), takeLine_append hmem, fileLines_cons hfile, ih hended']
    rfl

/-! ## Lines -/

theorem fileLines_line (hline : newline ∉ text) (hroom : text.length < 254) :
    fileLines (text ++ [newline]) = [text ++ [newline]] := by
  rw [fileLines_cons (by simp), takeLine_line hline hroom, fileLines_nil]

theorem fileLines_last (hline : newline ∉ text) (hne : text ≠ []) (hroom : text.length ≤ 254) :
    fileLines text = [text] := by
  rw [fileLines_cons hne, takeLine_last hline hroom, fileLines_nil]

theorem length_le_of_fileLines (h : (fileLines file).length ≤ 1) : file.length ≤ 254 := by
  have hjoin := fileLines_flatten file
  have hshort := fileLines_length_le file
  rcases hlines : fileLines file with _ | ⟨line, _ | ⟨line', lines⟩⟩
  · rw [hlines] at hjoin
    simp [← hjoin]
  · rw [hlines] at hjoin hshort
    rw [List.flatten_singleton] at hjoin
    exact hjoin ▸ hshort line (List.mem_singleton_self line)
  · rw [hlines] at h
    simp at h

theorem fileLines_pos (hne : file ≠ []) : 1 ≤ (fileLines file).length := by
  rw [fileLines_cons hne, List.length_cons]
  omega

/-! ## Texts of lines -/

/-- The lines of a file, each with its newline; the last one may have none. -/
def withNewlines (terminated : Bool) : List (List UInt8) → List (List UInt8)
  | [] => []
  | [text] => [if terminated then text ++ [newline] else text]
  | text :: text' :: texts => (text ++ [newline]) :: withNewlines terminated (text' :: texts)

/-- A line with its newline, if it has one. -/
def IsLine (line : List UInt8) : Prop :=
  line ≠ [] ∧ ∃ text, newline ∉ text ∧ (line = text ++ [newline] ∨ line = text)

theorem IsLine.fileLines (h : IsLine line) (hfits : line.length ≤ 254) : fileLines line = [line] := by
  obtain ⟨hne, text, htext, rfl | rfl⟩ := h
  · rw [List.length_append, List.length_singleton] at hfits
    exact fileLines_line htext (by omega)
  · exact fileLines_last htext hne hfits

theorem isLine_withNewlines (htexts : ∀ text ∈ texts, newline ∉ text)
    (hlast : terminated = true ∨ ∀ text ∈ texts.getLast?, text ≠ []) :
    ∀ line ∈ withNewlines terminated texts, IsLine line := by
  induction texts using withNewlines.induct with
  | case1 => simp [withNewlines]
  | case2 text =>
    have htext := htexts text (List.mem_singleton_self text)
    intro line hmem
    rw [withNewlines, List.mem_singleton] at hmem
    subst hmem
    split_ifs with hended
    · exact ⟨by simp, text, htext, Or.inl rfl⟩
    · exact ⟨hlast.resolve_left hended text rfl, text, htext, Or.inr rfl⟩
  | case3 text text' texts ih =>
    obtain ⟨htext, hrest⟩ := List.forall_mem_cons.mp htexts
    rw [List.getLast?_cons_cons] at hlast
    exact List.forall_mem_cons.mpr ⟨⟨by simp, text, htext, Or.inl rfl⟩, ih hrest hlast⟩

theorem length_withNewlines (terminated : Bool) (texts : List (List UInt8)) :
    (withNewlines terminated texts).length = texts.length := by
  induction texts using withNewlines.induct with
  | case1 => rfl
  | case2 text => rfl
  | case3 text text' texts ih =>
    rw [withNewlines, List.length_cons, ih]
    rfl

theorem tail_withNewlines (terminated : Bool) (texts : List (List UInt8)) :
    (withNewlines terminated texts).tail = withNewlines terminated texts.tail := by
  induction texts using withNewlines.induct with
  | case1 => rfl
  | case2 text => rfl
  | case3 text text' texts ih => rfl

theorem drop_withNewlines (terminated : Bool) (headers texts : List (List UInt8)) :
    (withNewlines terminated (headers ++ texts)).drop headers.length =
      withNewlines terminated texts := by
  induction headers with
  | nil => rfl
  | cons header headers ih => rw [List.length_cons, ← List.drop_tail, tail_withNewlines]; exact ih

theorem fileLines_withNewlines (terminated : Bool) (texts : List (List UInt8)) :
    fileLines (withNewlines terminated texts).flatten =
      (withNewlines terminated texts).flatMap fileLines := by
  induction texts using withNewlines.induct with
  | case1 => rfl
  | case2 text => simp [withNewlines]
  | case3 text text' texts ih =>
    rw [withNewlines, List.flatten_cons, List.flatMap_cons, ← ih]
    exact fileLines_append (fun _ => List.suffix_append text [newline]) _

section

variable {lines : List (List UInt8)} (hlines : ∀ line ∈ lines, IsLine line)

include hlines

theorem flatMap_fileLines (hfits : ∀ line ∈ lines, line.length ≤ 254) :
    lines.flatMap fileLines = lines := by
  induction lines with
  | nil => rfl
  | cons line lines ih =>
    obtain ⟨hline, hlines⟩ := List.forall_mem_cons.mp hlines
    obtain ⟨hfit, hfits⟩ := List.forall_mem_cons.mp hfits
    rw [List.flatMap_cons, hline.fileLines hfit, ih hlines hfits]
    rfl

theorem length_le_flatMap_fileLines : lines.length ≤ (lines.flatMap fileLines).length := by
  induction lines with
  | nil => exact Nat.zero_le _
  | cons line lines ih =>
    obtain ⟨hline, hlines⟩ := List.forall_mem_cons.mp hlines
    have hpos := fileLines_pos hline.1
    have hrest := ih hlines
    rw [List.flatMap_cons, List.length_append, List.length_cons]
    omega

theorem fits_of_flatMap_fileLines (hlength : (lines.flatMap fileLines).length ≤ lines.length) :
    ∀ line ∈ lines, line.length ≤ 254 := by
  induction lines with
  | nil =>
    intro line hmem
    cases hmem
  | cons line lines ih =>
    obtain ⟨hline, hlines⟩ := List.forall_mem_cons.mp hlines
    have hpos := fileLines_pos hline.1
    have hrest := length_le_flatMap_fileLines hlines
    rw [List.flatMap_cons, List.length_append, List.length_cons] at hlength
    exact List.forall_mem_cons.mpr ⟨length_le_of_fileLines (by omega), ih hlines (by omega)⟩

end

theorem fileLines_skipLine (file : List UInt8) : fileLines (skipLine file) = (fileLines file).tail := by
  by_cases hfile : file = []
  · rw [hfile]
    rfl
  · rw [skipLine, fgets_eq hfile, fileLines_cons hfile]
    rfl

end Bittorrent
