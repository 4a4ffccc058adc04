import Mathlib.Data.List.Basic
import Mathlib.Tactic.Common

/-!
# Lists cut into parts

`Cut size l parts`: the list `l` was cut, from its start, into parts of `size` elements, the last of
which may have fewer, but not none. The rules build such a cut part by part, and say how many parts
there are.
-/

namespace Bittorrent

variable {α : Type} {size : Nat} {l : List α} {parts : List (List α)}

/-- The parts are `l`, none is empty or too long, and only the last is not full. -/
structure Cut (size : Nat) (l : List α) (parts : List (List α)) : Prop where
  flatten : parts.flatten = l
  bounds : ∀ part ∈ parts, 1 ≤ part.length ∧ part.length ≤ size
  full : ∀ j part, parts[j]? = some part → part.length < size → j + 1 = parts.length

namespace Cut

theorem nil : Cut size ([] : List α) [] :=
  ⟨rfl, fun _ h => absurd h List.not_mem_nil, fun _ _ h => by simp at h⟩

theorem last (hpos : 1 ≤ l.length) (hle : l.length ≤ size) : Cut size l [l] := by
  refine ⟨by simp, fun part hpart => ?_, fun j part hj _ => ?_⟩
  · rw [List.mem_singleton.mp hpart]
    exact ⟨hpos, hle⟩
  · have := (List.getElem?_eq_some_iff.mp hj).1
    simp only [List.length_singleton] at this ⊢
    omega

theorem cons (hpos : 1 ≤ size) (hlt : size < l.length) (h : Cut size (l.drop size) parts) :
    Cut size l (l.take size :: parts) := by
  have hlength : (l.take size).length = size := List.length_take_of_le (by omega)
  refine ⟨by rw [List.flatten_cons, h.flatten, List.take_append_drop], fun part hpart => ?_,
    fun j part hj hshort => ?_⟩
  · rcases List.mem_cons.mp hpart with rfl | hpart
    · omega
    · exact h.bounds part hpart
  · cases j with
    | zero =>
      cases hj
      omega
    | succ j =>
      rw [List.length_cons, h.full j part hj hshort]

theorem tail {part : List α} (h : Cut size l (part :: parts)) : Cut size parts.flatten parts := by
  refine ⟨rfl, fun p hp => h.bounds p (List.mem_cons_of_mem _ hp), fun j p hj hshort => ?_⟩
  have := h.full (j + 1) p hj hshort
  rw [List.length_cons] at this
  omega

theorem getElem? {part : List α} {i : Nat} (h : Cut size l parts) (hi : parts[i]? = some part) :
    part = (l.drop (i * size)).take size := by
  induction parts generalizing l i with
  | nil => cases hi
  | cons first parts ih =>
    have hle := (h.bounds first List.mem_cons_self).2
    have hl : first ++ parts.flatten = l := h.flatten
    cases i with
    | zero =>
      obtain rfl : first = part := Option.some.inj hi
      rcases Nat.lt_or_eq_of_le hle with hshort | hfull
      · -- a part that is not full is the last
        have hlast := h.full 0 first rfl hshort
        rw [List.length_cons] at hlast
        obtain rfl : parts = [] := List.length_eq_zero_iff.mp (by omega)
        rw [List.flatten_nil, List.append_nil] at hl
        rw [Nat.zero_mul, List.drop_zero, ← hl, List.take_of_length_le hle]
      · rw [Nat.zero_mul, List.drop_zero, ← hl, ← hfull, List.take_left]
    | succ i =>
      have hfull : first.length = size := by
        by_contra hne
        have hlast := h.full 0 first rfl (by omega)
        have hlt := (List.getElem?_eq_some_iff.mp hi).1
        rw [List.length_cons] at hlast
        rw [List.length_cons] at hlt
        omega
      have hrest := ih h.tail hi
      rw [hrest, ← hl, Nat.succ_mul, Nat.add_comm, ← List.drop_drop, ← hfull, List.drop_left]

theorem length (hpos : 1 ≤ size) (h : Cut size l parts) :
    parts.length = (l.length + (size - 1)) / size := by
  induction parts generalizing l with
  | nil =>
    rw [← h.flatten]
    exact (Nat.div_eq_of_lt (by simp only [List.flatten_nil, List.length_nil]; omega)).symm
  | cons part parts ih =>
    obtain ⟨hone, hle⟩ := h.bounds part List.mem_cons_self
    have hrest := ih h.tail
    have hsum : l.length = part.length + parts.flatten.length := by
      rw [← h.flatten, List.flatten_cons, List.length_append]
    rw [List.length_cons, hsum]
    by_cases hshort : part.length < size
    · -- a part that is not full is the last
      have hlast := h.full 0 part rfl hshort
      rw [List.length_cons] at hlast
      have hnil : parts = [] := List.length_eq_zero_iff.mp (by omega)
      subst hnil
      rw [List.flatten_nil, List.length_nil]
      exact (Nat.div_eq_of_lt_le (by omega) (by omega)).symm
    · rw [show part.length + parts.flatten.length + (size - 1) =
        parts.flatten.length + (size - 1) + size by omega, Nat.add_div_right _ hpos, hrest]

end Cut

end Bittorrent
