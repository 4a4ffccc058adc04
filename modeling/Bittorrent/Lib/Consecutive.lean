import Mathlib.Data.List.Range
import Mathlib.Tactic.Common
import Mathlib.Order.Basic

/-!
# Queues of consecutive sequence numbers

`Consecutive l a t`: the queue `l` holds `a + 1, ..., t`, what is outstanding when `t` numbers were
issued and the first `a` of them acknowledged. The rules say how the queue grows by the next number,
how a cumulative acknowledgement shortens it, and what its length, head and members are.
-/

namespace Bittorrent

/-- The queue holds exactly `a + 1, ..., t`, in order. -/
def Consecutive (l : List Nat) (a t : Nat) : Prop := a ≤ t ∧ l = List.range' (a + 1) (t - a)

namespace Consecutive

variable {l : List Nat} {a t s : Nat}

theorem nil (a : Nat) : Consecutive [] a a := ⟨le_refl a, by simp⟩

theorem le (h : Consecutive l a t) : a ≤ t := h.1

theorem length (h : Consecutive l a t) : l.length = t - a := by
  rw [h.2, List.length_range']

theorem mem_iff (h : Consecutive l a t) : s ∈ l ↔ a < s ∧ s ≤ t := by
  rw [h.2, List.mem_range'_1]
  have := h.1
  omega

theorem pairwise (h : Consecutive l a t) : l.Pairwise (· < ·) := by
  rw [h.2]
  exact List.pairwise_lt_range'

theorem eq_nil_iff (h : Consecutive l a t) : l = [] ↔ a = t := by
  rw [← List.length_eq_zero_iff, h.length]
  have := h.1
  omega

theorem push (h : Consecutive l a t) : Consecutive (l ++ [t + 1]) a (t + 1) := by
  obtain ⟨hle, rfl⟩ := h
  refine ⟨by omega, ?_⟩
  rw [show t + 1 - a = (t - a) + 1 by omega, List.range'_concat,
    show a + 1 + 1 * (t - a) = t + 1 by omega]

theorem head {rest : List Nat} (h : Consecutive (s :: rest) a t) : s = a + 1 ∧ a < t := by
  have hlt : a < t := by
    have := h.length
    simp only [List.length_cons] at this
    omega
  obtain ⟨n, hn⟩ : ∃ n, t - a = n + 1 := ⟨t - a - 1, by omega⟩
  have he := h.2
  rw [hn, List.range'_succ] at he
  exact ⟨(List.cons.inj he).1, hlt⟩

theorem head?_eq (h : Consecutive l a t) : l.head? = if a < t then some (a + 1) else none := by
  cases l with
  | nil =>
    have := h.eq_nil_iff.mp rfl
    rw [if_neg (by omega)]
    rfl
  | cons s rest =>
    obtain ⟨rfl, hlt⟩ := h.head
    rw [if_pos hlt]
    rfl

theorem dropWhile_range' (s n a : Nat) : (List.range' (a + 1) n).dropWhile (fun x => decide (x ≤ s))
    = List.range' (a + min n (s - a) + 1) (n - min n (s - a)) := by
  induction n generalizing a with
  | zero => simp
  | succ n ih =>
    rw [List.range'_succ, List.dropWhile_cons]
    by_cases hs : a + 1 ≤ s
    · rw [if_pos (by simpa using hs), ih (a + 1)]
      congr 1 <;> omega
    · rw [if_neg (by simpa using hs), show min (n + 1) (s - a) = 0 by omega, Nat.sub_zero,
        List.range'_succ]

theorem ack (h : Consecutive l a t) (s : Nat) :
    Consecutive (l.dropWhile fun x => decide (x ≤ s)) (max a (min s t)) t := by
  obtain ⟨hle, rfl⟩ := h
  refine ⟨by omega, ?_⟩
  rw [dropWhile_range']
  congr 1 <;> omega

theorem takeWhile_length (h : Consecutive l a t) (s : Nat) :
    (l.takeWhile fun x => decide (x ≤ s)).length = max a (min s t) - a := by
  have hsum := congrArg List.length
    (List.takeWhile_append_dropWhile (p := fun x => decide (x ≤ s)) (l := l))
  have hack := h.ack s
  rw [List.length_append, h.length, hack.length] at hsum
  have := h.1
  have := hack.1
  omega

end Consecutive

end Bittorrent
