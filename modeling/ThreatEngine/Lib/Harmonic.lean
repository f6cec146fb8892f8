import Mathlib.Algebra.BigOperators.Field
import Mathlib.Algebra.Order.BigOperators.Group.Finset
import Mathlib.Data.Finset.CastCard
import Mathlib.Data.Real.Basic
import Mathlib.Tactic.Linarith
import Mathlib.Tactic.Positivity

/-! The harmonic sum of a family of registers: a register `r` weighs `2 ^ (-r)`,
so an untouched one weighs one and a touched one at most a half. -/
namespace Harmonic
open Finset
variable {ι κ : Type*}

noncomputable def weight (r : ℕ) : ℝ := ((2 ^ r : ℕ) : ℝ)⁻¹

noncomputable def mass (I : Finset ι) (r : ι → ℕ) : ℝ := ∑ i ∈ I, weight (r i)

theorem weight_eq (r : ℕ) : weight r = 2 ^ (-(r : ℤ)) := by simp [weight]

@[simp] theorem weight_zero : weight 0 = 1 := by simp [weight]

theorem weight_pos (r : ℕ) : 0 < weight r := by
  rw [weight_eq]
  exact zpow_pos (by norm_num) _

theorem weight_anti {r r' : ℕ} (h : r ≤ r') : weight r' ≤ weight r := by
  rw [weight_eq, weight_eq]
  exact zpow_le_zpow_right₀ (by norm_num) (by omega)

theorem weight_le_half {r : ℕ} (h : r ≠ 0) : weight r ≤ 1 / 2 := by
  have hone : weight 1 = 1 / 2 := by norm_num [weight]
  exact hone ▸ weight_anti (Nat.one_le_iff_ne_zero.mpr h)

variable {I : Finset ι} {r r' : ι → ℕ}

theorem mass_pos (hI : I.Nonempty) : 0 < mass I r := sum_pos (fun i _ => weight_pos (r i)) hI

/-- Raising registers lowers the sum. -/
theorem mass_anti (h : ∀ i ∈ I, r i ≤ r' i) : mass I r' ≤ mass I r :=
  sum_le_sum fun i hi => weight_anti (h i hi)

/-- The sum over registers of which only those of `J` are touched. -/
theorem mass_split {J : Finset ι} (hJ : J ⊆ I) (hout : ∀ i ∈ I, i ∉ J → r i = 0) :
    mass I r = I.card - J.card + mass J r := by
  classical
  have hrest : mass (I \ J) r = I.card - J.card := by
    have hone : ∀ i ∈ I \ J, weight (r i) = 1 := by
      intro i hi
      obtain ⟨hi, hnot⟩ := mem_sdiff.mp hi
      rw [hout i hi hnot, weight_zero]
    rw [mass, sum_congr rfl hone, sum_const, nsmul_one, cast_card_sdiff hJ]
  rw [mass, ← sum_sdiff hJ]
  exact congrArg (· + mass J r) hrest

/-- Each touched register takes at least a half away. -/
theorem mass_le {J : Finset ι} (hJ : J ⊆ I) (hout : ∀ i ∈ I, i ∉ J → r i = 0)
    (hin : ∀ i ∈ J, r i ≠ 0) : mass I r ≤ I.card - J.card / 2 := by
  have hhalf : mass J r ≤ J.card * (1 / 2) := by
    rw [← nsmul_eq_mul]
    exact sum_le_card_nsmul J _ _ fun i hi => weight_le_half (hin i hi)
  rw [mass_split hJ hout]
  linarith

/-- Registers reached each from one key weigh what the keys' ranks weigh. -/
theorem mass_image [DecidableEq ι] {S : Finset κ} {f : κ → ι} {rank : κ → ℕ}
    (hinj : Set.InjOn f S) (hrank : ∀ key ∈ S, r (f key) = rank key) :
    mass (S.image f) r = mass S rank := by
  rw [mass, sum_image hinj]
  exact sum_congr rfl fun key hk => by rw [hrank key hk]

end Harmonic
