import Mathlib.Logic.Basic
import Mathlib.Tactic.Common

/-!
# Matchings

`Matching S R`: the places of `S` and the keys of `R` are in bijection, where `S i k` says that place
`i` holds the key `k`. A matching grows by a new key in a new place and shrinks by a place and its
key.
-/

namespace Bittorrent

/-- Every place holds a key of `R`, no two places the same, and every key of `R` has a place. -/
structure Matching {ι κ : Type} (S : ι → κ → Prop) (R : κ → Prop) : Prop where
  sound : ∀ i k, S i k → R k
  unique : ∀ i j k, S i k → S j k → i = j
  total : ∀ k, R k → ∃ i, S i k

namespace Matching

variable {ι κ : Type} {S S' : ι → κ → Prop} {R R' : κ → Prop} {i₀ : ι} {k₀ : κ}

theorem empty (hS : ∀ i k, ¬ S i k) (hR : ∀ k, ¬ R k) : Matching S R where
  sound i k hi := absurd hi (hS i k)
  unique i _ k hi _ := absurd hi (hS i k)
  total k hk := absurd hk (hR k)

theorem congr (h : Matching S R) (hS : ∀ i k, S' i k ↔ S i k) (hR : ∀ k, R' k ↔ R k) :
    Matching S' R' where
  sound i k hi := (hR k).mpr (h.sound i k ((hS i k).mp hi))
  unique i j k hi hj := h.unique i j k ((hS i k).mp hi) ((hS j k).mp hj)
  total k hk := by
    obtain ⟨i, hi⟩ := h.total k ((hR k).mp hk)
    exact ⟨i, (hS i k).mpr hi⟩

theorem add (h : Matching S R) (hnew : ¬ R k₀) (hS : ∀ i k, S' i k ↔ S i k ∨ (i = i₀ ∧ k = k₀))
    (hR : ∀ k, R' k ↔ R k ∨ k = k₀) : Matching S' R' where
  sound i k hi := by
    rcases (hS i k).mp hi with hi | ⟨-, rfl⟩
    · exact (hR k).mpr (Or.inl (h.sound i k hi))
    · exact (hR k).mpr (Or.inr rfl)
  unique i j k hi hj := by
    rcases (hS i k).mp hi with hi | ⟨rfl, rfl⟩
    · rcases (hS j k).mp hj with hj | ⟨rfl, rfl⟩
      · exact h.unique i j k hi hj
      · exact absurd (h.sound i k hi) hnew
    · rcases (hS j k).mp hj with hj | ⟨rfl, -⟩
      · exact absurd (h.sound j k hj) hnew
      · rfl
  total k hk := by
    rcases (hR k).mp hk with hk | rfl
    · obtain ⟨i, hi⟩ := h.total k hk
      exact ⟨i, (hS i k).mpr (Or.inl hi)⟩
    · exact ⟨i₀, (hS i₀ k).mpr (Or.inr ⟨rfl, rfl⟩)⟩

theorem remove (h : Matching S R) (hat : S i₀ k₀) (honly : ∀ k, S i₀ k → k = k₀)
    (hS : ∀ i k, S' i k ↔ S i k ∧ i ≠ i₀) (hR : ∀ k, R' k ↔ R k ∧ k ≠ k₀) : Matching S' R' where
  sound i k hi := by
    obtain ⟨hi, hne⟩ := (hS i k).mp hi
    refine (hR k).mpr ⟨h.sound i k hi, fun hk => hne ?_⟩
    subst hk
    exact h.unique i i₀ k hi hat
  unique i j k hi hj := h.unique i j k ((hS i k).mp hi).1 ((hS j k).mp hj).1
  total k hk := by
    obtain ⟨hk, hne⟩ := (hR k).mp hk
    obtain ⟨i, hi⟩ := h.total k hk
    refine ⟨i, (hS i k).mpr ⟨hi, fun he => hne ?_⟩⟩
    subst he
    exact honly k hi

end Matching

end Bittorrent
