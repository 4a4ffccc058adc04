import Bittorrent.Model.Stdio

/-!
# Scanning

What the conversions of `sscanf` read from a text that is written as they expect it: `%d` takes a number
and `%s` the word behind it, and both stop where the next thing begins.

Each conversion is a `takeWhile` behind a `dropWhile`, so a text is split where the predicate changes
(`takeWhile_front`, `dropWhile_of_head`).
-/

namespace Bittorrent

variable {c : UInt8}

/-! ## Characters -/

def isxdigit (c : UInt8) : Bool := isdigit c || (65 ≤ c && c ≤ 70) || (97 ≤ c && c ≤ 102)

theorem not_space_of_isdigit (h : isdigit c = true) : isspace c = false ∧ c ≠ minusSign ∧ c ≠ plusSign ∧
    c ≠ 0 ∧ c ≠ newline ∧ c ≠ 35 := by
  simp only [isdigit, isspace, space, minusSign, plusSign, newline, Bool.and_eq_true, decide_eq_true_eq,
    Bool.or_eq_false_iff, Bool.and_eq_false_iff, decide_eq_false_iff_not, UInt8.le_iff_toNat_le,
    ← UInt8.toNat_inj, ne_eq, UInt8.reduceToNat] at h ⊢
  omega

theorem not_space_of_isxdigit (h : isxdigit c = true) : isspace c = false ∧ c ≠ 0 ∧ c ≠ newline := by
  simp only [isxdigit, isdigit, isspace, space, newline, Bool.and_eq_true, decide_eq_true_eq,
    Bool.or_eq_true, Bool.or_eq_false_iff, Bool.and_eq_false_iff, decide_eq_false_iff_not,
    UInt8.le_iff_toNat_le, ← UInt8.toNat_inj, ne_eq, UInt8.reduceToNat] at h ⊢
  omega

/-! ## The front of a text -/

theorem dropWhile_of_head {p : UInt8 → Bool} {text : List UInt8} (h : ∀ c ∈ text.head?, p c = false) :
    text.dropWhile p = text := by
  cases text with
  | nil => rfl
  | cons c text => exact List.dropWhile_cons_of_neg (by simp [h c rfl])

theorem takeWhile_front {p : UInt8 → Bool} {word rest : List UInt8} (hword : ∀ c ∈ word, p c = true)
    (hrest : ∀ c ∈ rest.head?, p c = false) :
    (word ++ rest).takeWhile p = word ∧ (word ++ rest).dropWhile p = rest := by
  rw [List.takeWhile_append_of_pos hword, List.dropWhile_append_of_pos hword, dropWhile_of_head hrest]
  refine ⟨?_, rfl⟩
  cases rest with
  | nil => rw [List.takeWhile_nil, List.append_nil]
  | cons c rest => rw [List.takeWhile_cons_of_neg (by simp [hrest c rfl]), List.append_nil]

theorem cString_front {text : List UInt8} (hplain : 0 ∉ text) {rest : List UInt8}
    (hrest : ∀ c ∈ rest.head?, c = 0) : cString (text ++ rest) = text := by
  have hword : ∀ c ∈ text, decide (c ≠ 0) = true := by
    intro c hc
    rw [decide_eq_true_eq]
    rintro rfl
    exact hplain hc
  have hend : ∀ c ∈ rest.head?, decide (c ≠ 0) = false := by
    intro c hc
    rw [hrest c hc]
    rfl
  exact (takeWhile_front hword hend).1

/-! ## Conversions -/

theorem scanInt_number (negative : Bool) {digits rest : List UInt8} (hne : digits ≠ [])
    (hdigits : ∀ c ∈ digits, isdigit c = true) (hrest : ∀ c ∈ rest.head?, isdigit c = false) :
    scanInt ((if negative then [minusSign] else []) ++ digits ++ rest) =
      some (toInt32 (clampLong (if negative then -decimalValue digits else decimalValue digits)),
        rest) := by
  obtain ⟨htake, hdrop⟩ := takeWhile_front hdigits hrest
  rcases digits with _ | ⟨d, digits⟩
  · exact absurd rfl hne
  · obtain ⟨hspace, hminus, hplus, -⟩ := not_space_of_isdigit (hdigits d (by simp))
    rw [List.cons_append] at htake hdrop
    cases negative with
    | true =>
      have hsign : isspace minusSign = false := by decide
      have hfront : (minusSign :: d :: (digits ++ rest)).dropWhile isspace =
          minusSign :: d :: (digits ++ rest) :=
        List.dropWhile_cons_of_neg (Bool.eq_false_iff.mp hsign)
      simp only [if_true, List.nil_append, List.cons_append, scanInt, hfront, List.head?_cons,
        decide_true, true_or, List.tail_cons, htake, hdrop, if_neg hne]
    | false =>
      have hfront : (d :: (digits ++ rest)).dropWhile isspace = d :: (digits ++ rest) :=
        List.dropWhile_cons_of_neg (Bool.eq_false_iff.mp hspace)
      have hsign : ¬ some d = some minusSign := by simpa using hminus
      have hsign' : ¬ some d = some plusSign := by simpa using hplus
      simp only [Bool.false_eq_true, if_false, List.nil_append, List.cons_append, scanInt, hfront,
        List.head?_cons, decide_eq_false hsign, hsign', or_self, htake, hdrop, if_neg hne]

theorem scanWord_word {width : Nat} {word rest : List UInt8} (hne : word ≠ [])
    (hword : ∀ c ∈ word, isspace c = false) (hrest : ∀ c ∈ rest.head?, isspace c = true)
    (hwidth : word.length ≤ width) :
    scanWord width (space :: (word ++ rest)) = some (word, rest) := by
  have hword' : ∀ c ∈ word, (!isspace c) = true := by
    intro c hc
    rw [hword c hc]
    rfl
  have hrest' : ∀ c ∈ rest.head?, (!isspace c) = false := by
    intro c hc
    rw [hrest c hc]
    rfl
  have hhead : ∀ c ∈ (word ++ rest).head?, isspace c = false := by
    rcases word with _ | ⟨d, word⟩
    · exact absurd rfl hne
    · intro c hc
      obtain rfl := Option.some_inj.mp hc
      exact hword _ List.mem_cons_self
  have hdrop : (space :: (word ++ rest)).dropWhile isspace = word ++ rest := by
    rw [List.dropWhile_cons_of_pos (by decide), dropWhile_of_head hhead]
  simp only [scanWord, hdrop, (takeWhile_front hword' hrest').1, List.take_of_length_le hwidth, if_neg hne,
    List.drop_left]

end Bittorrent
