import Mathlib.Data.List.Basic

/-!
# A row of queues

Packets go from the head of one queue to the tail of the next. Read from the last queue to the first, what is
in a part of the row is in the order in which it came (`content`): taking the head of a queue puts it between
what is before it and what is behind it (`content_pop`), and adding it to the next queue puts it to the end of
what that part of the row holds (`content_push`).
-/

namespace Bittorrent

variable {α : Type} {queue queue' : ℕ → List α} {i j n : ℕ} {x : α}

/-- What the queues from `i` up to `n` hold, those of the last queue first. -/
def content (queue : ℕ → List α) (i n : ℕ) : List α := (List.range' i (n - i)).reverse.flatMap queue

theorem content_self (queue : ℕ → List α) (n : ℕ) : content queue n n = [] := by
  rw [content, Nat.sub_self]
  rfl

theorem content_one (queue : ℕ → List α) (i : ℕ) : content queue i (i + 1) = queue i := by
  rw [content, Nat.add_sub_cancel_left]
  simp

theorem content_split (queue : ℕ → List α) (hij : i ≤ j) (hjn : j ≤ n) :
    content queue i n = content queue j n ++ content queue i j := by
  have hrange : List.range' i (n - i) = List.range' i (j - i) ++ List.range' j (n - j) := by
    have happend : List.range' i (j - i) ++ List.range' (i + 1 * (j - i)) (n - j) = List.range' i (j - i + (n - j)) :=
      List.range'_append
    rw [Nat.one_mul, Nat.add_sub_cancel' hij, Nat.add_comm, Nat.sub_add_sub_cancel hjn hij] at happend
    exact happend.symm
  rw [content, hrange, List.reverse_append, List.flatMap_append]
  rfl

theorem content_congr (h : ∀ k, i ≤ k → k < n → queue' k = queue k) : content queue' i n = content queue i n := by
  refine List.flatMap_congr fun k hk => ?_
  obtain ⟨hik, hkn⟩ := List.mem_range'_1.mp (List.mem_reverse.mp hk)
  exact h k hik (by omega)

theorem content_push (hi : i < n) (hpush : queue' i = queue i ++ [x]) (hothers : ∀ k < n, k ≠ i → queue' k = queue k) :
    content queue' 0 n = content queue i n ++ x :: content queue 0 i := by
  have hbefore : content queue' (i + 1) n = content queue (i + 1) n :=
    content_congr fun k hk hkn => hothers k hkn (by omega)
  have hbehind : content queue' 0 i = content queue 0 i :=
    content_congr fun k _ hk => hothers k (by omega) (Nat.ne_of_lt hk)
  rw [content_split queue' (Nat.zero_le i) (Nat.le_of_lt hi), content_split queue' (Nat.le_succ i) hi,
    content_split queue (Nat.le_succ i) hi, content_one, content_one, hbefore, hbehind, hpush]
  simp

theorem content_pop (hi : i < n) (hpop : queue i = x :: queue' i) (hothers : ∀ k < n, k ≠ i → queue' k = queue k) :
    content queue 0 n = content queue' (i + 1) n ++ x :: content queue' 0 (i + 1) := by
  have hbefore : content queue' (i + 1) n = content queue (i + 1) n :=
    content_congr fun k hk hkn => hothers k hkn (by omega)
  have hbehind : content queue' 0 i = content queue 0 i :=
    content_congr fun k _ hk => hothers k (by omega) (Nat.ne_of_lt hk)
  rw [content_split queue (Nat.zero_le (i + 1)) hi, content_split queue (Nat.zero_le i) (Nat.le_succ i),
    content_split queue' (Nat.zero_le i) (Nat.le_succ i), content_one, content_one, hbefore, hbehind, hpop]
  rfl

end Bittorrent
