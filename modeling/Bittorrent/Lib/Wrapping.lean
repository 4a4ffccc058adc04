import Mathlib.Data.Int.GCD
import Mathlib.Data.Nat.ModEq
import Mathlib.Tactic.Common
import Mathlib.Tactic.Ring

/-!
# Loops with a wrapping counter

A loop `for (i = start; i < bound; i = i + step)` whose counter takes its values modulo `m` ends when the
counter passes a value that is not below the bound (`counts_iff`). Starting from a multiple of
`gcd step m` it passes every such multiple, the last of which is `m - gcd step m`: that is the largest
bound it can reach (`ends_iff`), and `m` rounds are enough.
-/

namespace Bittorrent.Wrapping

/-- Whether the loop ends within `fuel` tests of its condition. -/
def counts (m step bound : Nat) : Nat → Nat → Bool
  | 0, _ => false
  | fuel + 1, i => if i < bound then counts m step bound fuel ((i + step) % m) else true

variable {m step bound fuel start i x : Nat}

theorem counts_iff (hi : i < m) :
    counts m step bound fuel i = true ↔ ∃ k < fuel, bound ≤ (i + k * step) % m := by
  induction fuel generalizing i with
  | zero => simp [counts]
  | succ fuel ih =>
    have hnext (k : Nat) : ((i + step) % m + k * step) % m = (i + (k + 1) * step) % m := by
      rw [Nat.mod_add_mod, Nat.add_assoc, Nat.add_comm step, Nat.succ_mul]
    rw [counts]
    split_ifs with hlt
    · rw [ih (Nat.mod_lt _ (Nat.zero_lt_of_lt hi))]
      constructor
      · rintro ⟨k, hk, hle⟩
        exact ⟨k + 1, Nat.succ_lt_succ hk, hnext k ▸ hle⟩
      · rintro ⟨k, hk, hle⟩
        cases k with
        | zero =>
          rw [Nat.zero_mul, Nat.add_zero, Nat.mod_eq_of_lt hi] at hle
          omega
        | succ k => exact ⟨k, Nat.lt_of_succ_lt_succ hk, (hnext k).symm ▸ hle⟩
    · simp only [true_iff]
      refine ⟨0, Nat.succ_pos fuel, ?_⟩
      rw [Nat.zero_mul, Nat.add_zero, Nat.mod_eq_of_lt hi]
      omega

theorem passed_le (hm : 0 < m) (hstart : Nat.gcd step m ∣ start) (k : Nat) :
    (start + k * step) % m ≤ m - Nat.gcd step m := by
  have hdvd : Nat.gcd step m ∣ (start + k * step) % m :=
    (Nat.dvd_mod_iff (Nat.gcd_dvd_right step m)).mpr
      (Nat.dvd_add hstart ((Nat.gcd_dvd_left step m).mul_left k))
  have hlt := Nat.mod_lt (start + k * step) hm
  obtain ⟨a, ha⟩ := hdvd
  obtain ⟨b, hb⟩ := Nat.gcd_dvd_right step m
  have hab : a < b := by
    apply Nat.lt_of_mul_lt_mul_left (a := Nat.gcd step m)
    omega
  have hsucc : Nat.gcd step m * (a + 1) ≤ Nat.gcd step m * b := Nat.mul_le_mul_left _ hab
  rw [Nat.mul_succ] at hsucc
  omega

theorem mod_eq_sub_of_dvd {g : Nat} (hg : 0 < g) (hle : g ≤ m) (h : m ∣ x + g) : x % m = m - g := by
  have hlt := Nat.mod_lt x (hg.trans_le hle)
  have hmod : m ∣ x % m + g := by
    rwa [Nat.dvd_iff_mod_eq_zero, Nat.mod_add_mod, ← Nat.dvd_iff_mod_eq_zero]
  obtain ⟨c, hc⟩ := hmod
  have hc1 : c = 1 := by
    have h0 : c ≠ 0 := by
      rintro rfl
      omega
    have h2 : c < 2 := by
      apply Nat.lt_of_mul_lt_mul_left (a := m)
      omega
    omega
  rw [hc1, Nat.mul_one] at hc
  omega

theorem last_passed (hm : 0 < m) (hstart : Nat.gcd step m ∣ start) :
    ∃ k < m, (start + k * step) % m = m - Nat.gcd step m := by
  have hg := Nat.gcd_pos_of_pos_right step hm
  rcases Nat.lt_or_ge (Nat.gcd step m) m with hlt | hge
  · obtain ⟨t, -, ht⟩ := Nat.exists_mul_mod_eq_gcd hlt
    obtain ⟨a, ha⟩ := hstart
    obtain ⟨n, rfl⟩ := Nat.exists_eq_succ_of_ne_zero hm.ne'
    -- `t` rounds add the gcd, so `n * (a + 1) * t` rounds take it off `a + 1` times
    refine ⟨n * (a + 1) * t % (n + 1), Nat.mod_lt _ hm, mod_eq_sub_of_dvd hg hlt.le ?_⟩
    have ht : step * t ≡ Nat.gcd step (n + 1) [MOD n + 1] := by
      rw [Nat.ModEq, ht, Nat.mod_eq_of_lt hlt]
    have hk : n * (a + 1) * t % (n + 1) * step ≡ n * (a + 1) * Nat.gcd step (n + 1) [MOD n + 1] :=
      calc n * (a + 1) * t % (n + 1) * step
          ≡ n * (a + 1) * t * step [MOD n + 1] := (Nat.mod_modEq _ _).mul_right step
        _ = n * (a + 1) * (step * t) := by ring
        _ ≡ n * (a + 1) * Nat.gcd step (n + 1) [MOD n + 1] := ht.mul_left _
    have hsum : start + n * (a + 1) * t % (n + 1) * step + Nat.gcd step (n + 1) ≡
        (n + 1) * ((a + 1) * Nat.gcd step (n + 1)) [MOD n + 1] :=
      calc start + n * (a + 1) * t % (n + 1) * step + Nat.gcd step (n + 1)
          ≡ start + n * (a + 1) * Nat.gcd step (n + 1) + Nat.gcd step (n + 1) [MOD n + 1] :=
            (hk.add_left start).add_right _
        _ = (n + 1) * ((a + 1) * Nat.gcd step (n + 1)) := by rw [ha]; ring
    exact (Nat.modEq_zero_iff_dvd).mp (hsum.trans (Nat.modEq_zero_iff_dvd.mpr (Nat.dvd_mul_right ..)))
  · have hgm : Nat.gcd step m = m := Nat.le_antisymm (Nat.le_of_dvd hm (Nat.gcd_dvd_right step m)) hge
    refine ⟨0, hm, ?_⟩
    rw [hgm] at hstart ⊢
    rw [Nat.zero_mul, Nat.add_zero, Nat.mod_eq_zero_of_dvd hstart, Nat.sub_self]

/-- The loop ends if and only if its bound is at most the last multiple. -/
theorem ends_iff (bound : Nat) (hstart : Nat.gcd step m ∣ start) (hlt : start < m) (hfuel : m ≤ fuel) :
    counts m step bound fuel start = true ↔ bound ≤ m - Nat.gcd step m := by
  have hm : 0 < m := Nat.zero_lt_of_lt hlt
  rw [counts_iff hlt]
  constructor
  · rintro ⟨k, -, hle⟩
    exact hle.trans (passed_le hm hstart k)
  · intro hle
    obtain ⟨k, hk, hlast⟩ := last_passed hm hstart
    exact ⟨k, Nat.lt_of_lt_of_le hk hfuel, hlast.symm ▸ hle⟩

end Bittorrent.Wrapping
