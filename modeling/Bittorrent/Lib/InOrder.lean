import Mathlib.Data.List.Basic
import Mathlib.Tactic.Common

/-!
# The in-order counter

A receiver that takes number `k + 1` only when it has taken `k` needs one counter, whatever arrives:
`next k s` is the counter after the number `s`, and `counts k xs` lists it after each of `xs`. It never
decreases, and to get from `k` to `n` the numbers `k + 1, ..., n` must have arrived in this order.
-/

namespace Bittorrent.InOrder

/-- The counter after a number has arrived. -/
def next (k s : Nat) : Nat := if s = k + 1 then k + 1 else k

/-- The counter after each number of a sequence. -/
def counts (k : Nat) : List Nat → List Nat
  | [] => []
  | s :: xs => next k s :: counts (next k s) xs

variable {k n s j : Nat} {xs : List Nat}

theorem le_next (k s : Nat) : k ≤ next k s := by
  rw [next]
  split_ifs <;> omega

theorem next_le (k s : Nat) : next k s ≤ k + 1 := by
  rw [next]
  split_ifs <;> omega

theorem le_of_mem_counts (h : n ∈ counts k xs) : k ≤ n := by
  induction xs generalizing k with
  | nil => cases h
  | cons s xs ih =>
    rw [counts, List.mem_cons] at h
    rcases h with rfl | h
    · exact le_next k s
    · exact Nat.le_trans (le_next k s) (ih h)

theorem counts_pairwise (k : Nat) (xs : List Nat) : (counts k xs).Pairwise (· ≤ ·) := by
  induction xs generalizing k with
  | nil => exact List.Pairwise.nil
  | cons s xs ih => exact List.Pairwise.cons (fun n hn => le_of_mem_counts hn) (ih (next k s))

theorem range_sublist (h : (counts k xs)[j]? = some n) :
    (List.range' (k + 1) (n - k)).Sublist (xs.take (j + 1)) := by
  induction xs generalizing k j with
  | nil => cases h
  | cons s xs ih =>
    -- the numbers after `s`
    have hrest : (List.range' (next k s + 1) (n - next k s)).Sublist (xs.take j) ∧ next k s ≤ n := by
      cases j with
      | zero =>
        obtain rfl : next k s = n := by simpa [counts] using h
        simp
      | succ j =>
        have h : (counts (next k s) xs)[j]? = some n := by simpa [counts] using h
        exact ⟨ih h, le_of_mem_counts (List.mem_of_getElem? h)⟩
    obtain ⟨hrest, hle⟩ := hrest
    rw [List.take_succ_cons]
    by_cases hs : s = k + 1
    · rw [next, if_pos hs] at hrest hle
      have hlen : n - k = (n - (k + 1)) + 1 := by omega
      rw [hlen, List.range'_succ, hs]
      exact hrest.cons_cons (k + 1)
    · rw [next, if_neg hs] at hrest
      exact hrest.cons s

end Bittorrent.InOrder
