import Mathlib.Data.List.Basic
import Mathlib.Tactic.Common

/-!
# Blocks of a stream

`blocks size l` are the complete blocks of `size` elements at the front of a list, and `unblocked size l`
is what follows the last of them. The rules say how they grow with the list (`blocks_append`).
`Absorbed step size s l t` is what a reader knows that keeps only the result of folding `step` over the
blocks so far and the elements of the block that is not complete: it may be given the list in any pieces.
-/

namespace Bittorrent

variable {α σ : Type} {size : Nat} {l l' block : List α} {step : σ → List α → σ} {s : σ} {t : σ × List α}

def blocks (size : Nat) (l : List α) : List (List α) :=
  (List.range (l.length / size)).map fun i => (l.drop (i * size)).take size

def unblocked (size : Nat) (l : List α) : List α := l.drop (l.length / size * size)

theorem blocks_short (h : l.length < size) : blocks size l = [] ∧ unblocked size l = l := by
  rw [blocks, unblocked, Nat.div_eq_of_lt h]
  simp

theorem blocks_block (hpos : 0 < size) (h : block.length = size) (l : List α) :
    blocks size (block ++ l) = block :: blocks size l ∧
      unblocked size (block ++ l) = unblocked size l := by
  have hcount : (block ++ l).length / size = l.length / size + 1 := by
    rw [List.length_append, h, Nat.add_comm, Nat.add_div_right _ hpos]
  have hdrop : ∀ i, (block ++ l).drop ((i + 1) * size) = l.drop (i * size) := by
    intro i
    rw [Nat.succ_mul, Nat.add_comm, ← h, List.drop_append]
    simp
  refine ⟨?_, ?_⟩
  · rw [blocks, hcount, List.range_succ_eq_map, List.map_cons, List.map_map]
    congr 1
    · rw [Nat.zero_mul, List.drop_zero, ← h, List.take_left]
    · exact List.map_congr_left fun i _ => congrArg (List.take size) (hdrop i)
  · rw [unblocked, hcount, hdrop, unblocked]

theorem blocks_induction {P : List α → Prop} (hpos : 0 < size) (hshort : ∀ l, l.length < size → P l)
    (hblock : ∀ block l, block.length = size → P l → P (block ++ l)) (l : List α) : P l := by
  induction hlength : l.length using Nat.strongRecOn generalizing l with
  | ind n ih =>
    rcases Nat.lt_or_ge l.length size with hlt | hle
    · exact hshort l hlt
    · have hrest : P (l.drop size) := ih _ (by rw [List.length_drop]; omega) _ rfl
      have hfirst := hblock (l.take size) (l.drop size) (List.length_take_of_le hle) hrest
      rwa [List.take_append_drop] at hfirst

theorem blocks_append (hpos : 0 < size) (l l' : List α) :
    blocks size (l ++ l') = blocks size l ++ blocks size (unblocked size l ++ l') ∧
      unblocked size (l ++ l') = unblocked size (unblocked size l ++ l') := by
  induction l using blocks_induction hpos with
  | hshort l hshort =>
    rw [(blocks_short hshort).1, (blocks_short hshort).2]
    exact ⟨rfl, rfl⟩
  | hblock block l hlength ih =>
    obtain ⟨hblocks, hrest⟩ := blocks_block hpos hlength l
    obtain ⟨hblocks', hrest'⟩ := blocks_block hpos hlength (l ++ l')
    rw [List.append_assoc, hblocks, hrest, hblocks', hrest', ih.1, ih.2]
    exact ⟨rfl, rfl⟩

theorem flatten_blocks (hpos : 0 < size) (l : List α) :
    (blocks size l).flatten ++ unblocked size l = l := by
  induction l using blocks_induction hpos with
  | hshort l hshort => rw [(blocks_short hshort).1, (blocks_short hshort).2, List.flatten_nil, List.nil_append]
  | hblock block l hlength ih =>
    obtain ⟨hblocks, hrest⟩ := blocks_block hpos hlength l
    rw [hblocks, hrest, List.flatten_cons, List.append_assoc, ih]

theorem unblocked_length (size : Nat) (l : List α) : (unblocked size l).length = l.length % size := by
  rw [unblocked, List.length_drop, Nat.mod_eq_sub_div_mul]

/-! ## Readers -/

/-- The fold over the complete blocks, and the block that is not complete. -/
def Absorbed (step : σ → List α → σ) (size : Nat) (s : σ) (l : List α) (t : σ × List α) : Prop :=
  t.1 = (blocks size l).foldl step s ∧ t.2 = unblocked size l

namespace Absorbed

theorem nil (hpos : 0 < size) : Absorbed step size s [] (s, []) := by
  obtain ⟨hblocks, hrest⟩ := blocks_short (l := ([] : List α)) hpos
  exact ⟨by rw [hblocks]; rfl, hrest.symm⟩

theorem grow (hpos : 0 < size) (h : Absorbed step size s l t) (hlt : (t.2 ++ l').length < size) :
    Absorbed step size s (l ++ l') (t.1, t.2 ++ l') := by
  obtain ⟨hblocks, hrest⟩ := blocks_append hpos l l'
  rw [← h.2, (blocks_short hlt).1, List.append_nil] at hblocks
  rw [← h.2, (blocks_short hlt).2] at hrest
  exact ⟨by rw [hblocks]; exact h.1, hrest.symm⟩

theorem complete (hpos : 0 < size) (h : Absorbed step size s l t) (heq : (t.2 ++ l').length = size) :
    Absorbed step size s (l ++ l') (step t.1 (t.2 ++ l'), []) := by
  obtain ⟨hblocks, hrest⟩ := blocks_append hpos l l'
  obtain ⟨hone, hnone⟩ := blocks_block hpos heq []
  obtain ⟨hnil, hempty⟩ := blocks_short (l := ([] : List α)) hpos
  rw [List.append_nil, hnil] at hone
  rw [List.append_nil, hempty] at hnone
  rw [← h.2, hone] at hblocks
  rw [← h.2, hnone] at hrest
  exact ⟨by rw [hblocks, List.foldl_append, ← h.1]; rfl, hrest.symm⟩

theorem length (h : Absorbed step size s l t) : t.2.length = l.length % size := by
  rw [h.2, unblocked_length]

end Absorbed

end Bittorrent
