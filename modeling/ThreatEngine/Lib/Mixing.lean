import Mathlib.Data.Int.CardIntervalMod

/-! Hashes that fold a round over their input. Where a round loses neither its
state nor its input, the hash does not either, and residues of a hash that takes
every value once are spread evenly. -/
namespace Mixing
open Function
variable {σ β : Type*} {round : σ → β → σ}

/-- Different states stay different. -/
theorem foldl_injective (hstate : ∀ b, Injective fun h => round h b) (l : List β) :
    Injective fun h => l.foldl round h := by
  induction l with
  | nil => exact injective_id
  | cons b l ih => exact ih.comp (hstate b)

/-- Different inputs at one place give different results. -/
theorem foldl_injective_at (hstate : ∀ b, Injective fun h => round h b)
    (hinput : ∀ h, Injective (round h)) (h : σ) (before after : List β) :
    Injective fun b => (before ++ b :: after).foldl round h := by
  have hsplit : (fun b => (before ++ b :: after).foldl round h) =
      (fun h' => after.foldl round h') ∘ round (before.foldl round h) := by
    funext b
    simp
  rw [hsplit]
  exact (foldl_injective hstate after).comp (hinput _)

/-- The numbers below a multiple of `n` take every residue equally often. -/
theorem card_residue {m n r : Nat} (hn : n ∣ m) (hr : r < n) :
    ((Finset.range m).filter fun x => x % n = r).card = m / n := by
  have hpos : 0 < n := Nat.zero_lt_of_lt hr
  have hmodEq : ∀ x, x % n = r ↔ x ≡ r [MOD n] := fun x => by
    rw [Nat.ModEq, Nat.mod_eq_of_lt hr]
  simp only [hmodEq]
  rw [← Nat.count_eq_card_filter_range, Nat.count_modEq_card _ hpos, Nat.mod_eq_zero_of_dvd hn]
  simp

/-- So do the values of a function that permutes them. -/
theorem card_residue_of_injOn {m n r : Nat} {f : Nat → Nat} (hrange : ∀ x < m, f x < m)
    (hinj : ∀ x < m, ∀ y < m, f x = f y → x = y) (hn : n ∣ m) (hr : r < n) :
    ((Finset.range m).filter fun x => f x % n = r).card = m / n := by
  have hmaps : Set.MapsTo f (Finset.range m) (Finset.range m) := fun x hx => by
    simpa using hrange x (by simpa using hx)
  have hinjOn : Set.InjOn f (Finset.range m) := fun x hx y hy =>
    hinj x (by simpa using hx) y (by simpa using hy)
  have himage : (Finset.range m).image f = Finset.range m :=
    Finset.eq_of_subset_of_card_le (Finset.image_subset_iff.mpr hmaps)
      (Finset.card_image_of_injOn hinjOn).ge
  have hfilter : (Finset.range m).filter (fun x => x % n = r) =
      ((Finset.range m).filter fun x => f x % n = r).image f := by
    conv_lhs => rw [← himage]
    rw [Finset.filter_image]
  rw [← card_residue hn hr, hfilter]
  refine (Finset.card_image_of_injOn (hinjOn.mono ?_)).symm
  exact Finset.coe_subset.mpr (Finset.filter_subset _ _)

end Mixing
