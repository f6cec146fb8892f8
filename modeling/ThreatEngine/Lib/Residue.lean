import Mathlib.Data.Int.ModEq
import Mathlib.Tactic.Ring

/-! Residues of positions in a ring and of words in two's complement. -/
namespace Residue

/-- Two positions in one window of `n` consecutive ones share a residue only
when they are equal. -/
theorem eq_of_window {n c a b : Nat} (ha : c ≤ a) (ha' : a < c + n) (hb : c ≤ b)
    (hb' : b < c + n) (h : a % n = b % n) : a = b := by
  cases Nat.le_total a b with
  | inl hab =>
    have hd : (b - a) % n = 0 := Nat.sub_mod_eq_zero_of_mod_eq h.symm
    rw [Nat.mod_eq_of_lt (by omega)] at hd
    omega
  | inr hab =>
    have hd : (a - b) % n = 0 := Nat.sub_mod_eq_zero_of_mod_eq h
    rw [Nat.mod_eq_of_lt (by omega)] at hd
    omega

theorem succ_mod_ne {n a : Nat} (hn : 2 ≤ n) : (a + 1) % n ≠ a % n := by
  intro h
  have := eq_of_window (c := a) (by omega) (by omega) le_rfl (by omega) h
  omega

/-- Every position has a representative in a window of `n` consecutive ones. -/
theorem exists_window {n : Nat} (hn : 0 < n) (c p : Nat) :
    ∃ r, c ≤ r ∧ r < c + n ∧ r % n = p % n := by
  refine ⟨c + (p + (n - 1) * c) % n, Nat.le_add_right _ _, ?_, ?_⟩
  · have := Nat.mod_lt (p + (n - 1) * c) hn
    omega
  · have hc : c + (p + (n - 1) * c) = p + n * c := by
      obtain ⟨m, rfl⟩ : ∃ m, n = m + 1 := ⟨n - 1, by omega⟩
      simp only [Nat.add_sub_cancel]
      ring
    rw [Nat.add_mod_mod, hc, Nat.add_mul_mod_self_left]

theorem and_mask {k p m : Nat} (hm : m + 1 = 2 ^ k) : p &&& m = p % 2 ^ k := by
  have : m = 2 ^ k - 1 := by omega
  rw [this, Nat.and_two_pow_sub_one_eq_mod]

/-- Reducing the operands first does not change a wrapped difference. -/
theorem bmod_sub_bmod (a b : Int) (n : Nat) :
    Int.bmod (Int.bmod a n - Int.bmod b n) n = Int.bmod (a - b) n := by
  simp

theorem bmod_natCast_mod (a n : Nat) : Int.bmod ((a % n : Nat) : Int) n = Int.bmod (a : Int) n := by
  simp

/-- A difference in the signed range of the word is not changed by wrap-around. -/
theorem bmod_of_range {w : Nat} {x : Int} (hl : -(2 : Int) ^ w ≤ x) (hu : x < 2 ^ w) :
    Int.bmod x (2 ^ (w + 1)) = x := by
  apply Int.bmod_eq_of_le
  · push_cast
    rw [pow_succ]
    omega
  · push_cast
    rw [pow_succ]
    omega

end Residue
