import Mathlib.Data.List.Basic
import Mathlib.Tactic.Common

/-!
# Lines

`cutLines sep l` cuts a list after each `sep`: the lines without their separators, and what follows the
last of them. The rules say how a list is cut that grows at its end (`cutLines_append`), which is how a
reader that keeps the unfinished line sees its input. `lines_induction` goes line by line.
-/

namespace Bittorrent

variable {α : Type} [DecidableEq α] {sep : α} {l l' line : List α} {bound : Nat}

def cutLines (sep : α) : List α → List (List α) × List α
  | [] => ([], [])
  | c :: l =>
    let (lines, rest) := cutLines sep l
    if c = sep then ([] :: lines, rest)
    else
      match lines with
      | [] => ([], c :: rest)
      | line :: lines => ((c :: line) :: lines, rest)

theorem cutLines_plain (hl : sep ∉ l) : cutLines sep l = ([], l) := by
  induction l with
  | nil => rfl
  | cons c l ih =>
    rw [List.mem_cons, not_or] at hl
    rw [cutLines, ih hl.2]
    exact if_neg (Ne.symm hl.1)

theorem cutLines_line (hline : sep ∉ line) (l : List α) :
    cutLines sep (line ++ sep :: l) = (line :: (cutLines sep l).1, (cutLines sep l).2) := by
  induction line with
  | nil => exact if_pos rfl
  | cons c line ih =>
    rw [List.mem_cons, not_or] at hline
    rw [List.cons_append, cutLines, ih hline.2]
    exact if_neg (Ne.symm hline.1)

theorem lines_induction (sep : α) {P : List α → Prop} (hplain : ∀ l, sep ∉ l → P l)
    (hline : ∀ line l, sep ∉ line → P l → P (line ++ sep :: l)) (l : List α) : P l := by
  induction hlength : l.length using Nat.strongRecOn generalizing l with
  | ind n ih =>
    by_cases hmem : sep ∈ l
    · obtain ⟨line, rest, rfl, hfirst⟩ := List.eq_append_cons_of_mem hmem
      refine hline line rest hfirst (ih rest.length ?_ rest rfl)
      rw [← hlength, List.length_append, List.length_cons]
      omega
    · exact hplain l hmem

theorem cutLines_append (l l' : List α) :
    cutLines sep (l ++ l') =
      ((cutLines sep l).1 ++ (cutLines sep ((cutLines sep l).2 ++ l')).1,
        (cutLines sep ((cutLines sep l).2 ++ l')).2) := by
  induction l using lines_induction sep with
  | hplain l hl => rw [cutLines_plain hl, List.nil_append]
  | hline line l hline ih =>
    rw [List.append_assoc, List.cons_append, cutLines_line hline, ih, cutLines_line hline,
      List.cons_append]

theorem not_mem_unfinished (l : List α) : sep ∉ (cutLines sep l).2 := by
  induction l using lines_induction sep with
  | hplain l hl => rwa [cutLines_plain hl]
  | hline line l hline ih => rwa [cutLines_line hline]

theorem length_cutLines (sep : α) (l : List α) :
    (cutLines sep l).1.flatten.length + (cutLines sep l).1.length + (cutLines sep l).2.length = l.length := by
  induction l using lines_induction sep with
  | hplain l hl =>
    rw [cutLines_plain hl]
    exact Nat.zero_add _
  | hline line l hline ih =>
    rw [cutLines_line hline]
    simp only [List.flatten_cons, List.length_cons, List.length_append]
    omega

theorem length_lines_le (sep : α) (l : List α) : (cutLines sep l).1.length ≤ l.length := by
  have hlength := length_cutLines sep l
  omega

/-! ## Short lines -/

/-- No line is as long as `bound`, the unfinished one included. -/
def LinesBelow (sep : α) (bound : Nat) (l : List α) : Prop :=
  (∀ line ∈ (cutLines sep l).1, line.length < bound) ∧ (cutLines sep l).2.length < bound

theorem LinesBelow.unfinished (hl : sep ∉ l) (h : LinesBelow sep bound (l ++ l')) : l.length < bound := by
  induction l' using lines_induction sep with
  | hplain l' hl' =>
    have hplain : sep ∉ l ++ l' := by simp [hl, hl']
    have hlast := h.2
    rw [cutLines_plain hplain, List.length_append] at hlast
    omega
  | hline line l' hline _ =>
    have hplain : sep ∉ l ++ line := by simp [hl, hline]
    have hfirst := h.1 (l ++ line)
    rw [← List.append_assoc, cutLines_line hplain, List.length_append] at hfirst
    have hlt := hfirst List.mem_cons_self
    omega

theorem LinesBelow.append_left (h : LinesBelow sep bound (l ++ l')) :
    LinesBelow sep bound ((cutLines sep l).2 ++ l') ∧ LinesBelow sep bound l := by
  have hrest : LinesBelow sep bound ((cutLines sep l).2 ++ l') := by
    rw [LinesBelow, cutLines_append] at h
    exact ⟨fun line hline => h.1 line (List.mem_append_right _ hline), h.2⟩
  refine ⟨hrest, fun line hline => ?_, hrest.unfinished (not_mem_unfinished l)⟩
  rw [LinesBelow, cutLines_append] at h
  exact h.1 line (List.mem_append_left _ hline)

end Bittorrent
