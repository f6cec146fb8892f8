import Mathlib.Order.Filter.AtTopBot.Basic
import Mathlib.Data.Prod.Lex

/-! Infinite runs and what must come about in them. Goals and measures are functions
of the moment, and a moment is a step of the run. -/
namespace Fair
open Filter
variable {β γ : Type*} [PartialOrder β] [WellFoundedLT β] [PartialOrder γ] [WellFoundedLT γ]
variable {goal : ℕ → Prop}

/-- A measure that goes down again and again until the goal is reached. -/
theorem reaches {m : ℕ → β} (hle : ∀ᶠ i in atTop, ¬ goal i → m (i + 1) ≤ m i)
    (hlt : ∃ᶠ i in atTop, ¬ goal i → m (i + 1) < m i) : ∃ᶠ i in atTop, goal i := by
  intro hnever
  obtain ⟨N, hN⟩ := eventually_atTop.mp (hle.and hnever)
  have hanti {i j : ℕ} (hi : N ≤ i) (hij : i ≤ j) : m j ≤ m i := by
    induction j, hij using Nat.le_induction with
    | base => exact le_rfl
    | succ j hij ih => exact ((hN j (hi.trans hij)).1 (hN j (hi.trans hij)).2).trans ih
  -- the least value that the measure takes from `N` on
  obtain ⟨_, ⟨i, hi, rfl⟩, hmin⟩ := WellFounded.has_min (wellFounded_lt (α := β))
    {b | ∃ i, N ≤ i ∧ m i = b} ⟨m N, N, le_rfl, rfl⟩
  obtain ⟨j, hij, hj⟩ := frequently_atTop.mp hlt i
  have hNj : N ≤ j := hi.trans hij
  exact hmin (m (j + 1)) ⟨j + 1, hNj.trans (Nat.le_succ j), rfl⟩
    ((hj (hN j hNj).2).trans_le (hanti hi hij))

/-- A process whose moves go down in `m`, or stay there and go down in `m'`, unless they fail; moves
that fail again and again also go down in `m` again and again. -/
theorem reaches_of_strong (m : ℕ → β) (m' : ℕ → γ) {moves fails : ℕ → Prop}
    (hmoves : ∃ᶠ i in atTop, moves i)
    (hstrong : (∃ᶠ i in atTop, fails i) → ∃ᶠ i in atTop, ¬ goal i → m (i + 1) < m i)
    (hstep : ∀ᶠ i in atTop, ¬ goal i → m (i + 1) < m i ∨ m (i + 1) = m i ∧
      (fails i ∨ m' (i + 1) < m' i ∨ m' (i + 1) = m' i ∧ ¬ moves i)) :
    ∃ᶠ i in atTop, goal i := by
  by_cases hfails : ∃ᶠ i in atTop, fails i
  · refine reaches (hstep.mono fun i h hg => ?_) (hstrong hfails)
    obtain hlt | ⟨he, -⟩ := h hg
    · exact hlt.le
    · exact he.le
  · have hboth := hstep.and (not_frequently.mp hfails)
    refine reaches (m := fun i => toLex (m i, m' i)) (hboth.mono fun i h hg => ?_)
      ((hmoves.and_eventually hboth).mono fun i h hg => ?_)
    · obtain hlt | ⟨he, hf | hlt | ⟨he', -⟩⟩ := h.1 hg
      · exact (Prod.Lex.toLex_lt_toLex.mpr (.inl hlt)).le
      · exact absurd hf h.2
      · exact (Prod.Lex.toLex_lt_toLex.mpr (.inr ⟨he, hlt⟩)).le
      · rw [he, he']
    · obtain hlt | ⟨he, hf | hlt | ⟨-, hn⟩⟩ := h.2.1 hg
      · exact Prod.Lex.toLex_lt_toLex.mpr (.inl hlt)
      · exact absurd hf h.2.2
      · exact Prod.Lex.toLex_lt_toLex.mpr (.inr ⟨he, hlt⟩)
      · exact absurd h.1 hn

end Fair
